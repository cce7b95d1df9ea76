import Mathlib
import CircuitExchange.Document.Basic
import CircuitExchange.Proofs.Token.Blank

/-!
Canonical files are written with one token a line and read line by line. Blanks around a token are
lost on the way, line feeds among them, and make no difference to its record. A line feed between
the ends of a token cuts it in two, and the first part is no token by itself: such tokens can only
come from a JSON list, and are written as text that is not read again.

* `line_induction`: induction on the lines of a text.
* `Circuit.tokenChars`: the tokens of a text, line by line.
* `Circuit.tokenChars_append`, `Circuit.tokenChars_trim`: the tokens of two texts, a line feed
  between them, and of a text with blanks around it.
* `Record.first_line_of_isWritten`: the first line of a token on several lines is no token.
* `Circuit.tokenLines_text`: the tokens read from what a circuit is written as.
* `canonical_file_round_trip`: which circuits are read back.
-/

namespace CircuitExchange

open Text

/-! ### Lines -/

section Lines

variable {c : Char} {cs : List Char}

/-- Induction on the lines of a text: a line without an end, and a line in front of a text. -/
@[elab_as_elim]
theorem line_induction {P : List Char → Prop} (line : ∀ cs, '\n' ∉ cs → P cs)
    (lineFeed : ∀ cs ds, '\n' ∉ cs → P ds → P (cs ++ '\n' :: ds)) (cs : List Char) : P cs := by
  induction hlength : cs.length using Nat.strong_induction_on generalizing cs with
  | _ length ih =>
    by_cases h : '\n' ∈ cs
    · obtain ⟨as, bs, rfl, has⟩ := List.eq_append_cons_of_mem h
      refine lineFeed as bs has (ih bs.length ?_ bs rfl)
      rw [← hlength, List.length_append, List.length_cons]
      omega
    · exact line cs h

theorem splitLines_of_notMem (h : '\n' ∉ cs) (ds : List Char) :
    splitLines (cs ++ '\n' :: ds) = cs :: splitLines ds := by
  induction cs with
  | nil => rfl
  | cons c cs ih =>
    rw [List.mem_cons, not_or] at h
    rw [List.cons_append, splitLines, if_neg (Ne.symm h.1), ih h.2]

theorem exists_splitLines_cons (hc : c ≠ '\n') (cs : List Char) :
    ∃ line lines, splitLines (c :: cs) = (c :: line) :: lines := by
  rw [splitLines, if_neg hc]
  cases splitLines cs with
  | nil => exact ⟨[], [], rfl⟩
  | cons line lines => exact ⟨line, lines, rfl⟩

theorem splitLines_eq_singleton (hcs : cs ≠ []) (h : '\n' ∉ cs) : splitLines cs = [cs] := by
  induction cs with
  | nil => exact absurd rfl hcs
  | cons c cs ih =>
    rw [List.mem_cons, not_or] at h
    rw [splitLines, if_neg (Ne.symm h.1)]
    cases cs with
    | nil => rfl
    | cons d cs => rw [ih (List.cons_ne_nil _ _) h.2]

theorem notMem_of_mem_splitLines {line : List Char} (h : line ∈ splitLines cs) : '\n' ∉ line := by
  induction cs using line_induction with
  | line cs hcs =>
    by_cases hnil : cs = []
    · rw [hnil] at h
      cases h
    · rw [splitLines_eq_singleton hnil hcs] at h
      rwa [List.mem_singleton.1 h]
  | lineFeed as bs has ih =>
    rw [splitLines_of_notMem has] at h
    rcases List.mem_cons.1 h with rfl | h
    · exact has
    · exact ih h

end Lines

/-! ### Tokens of a text -/

namespace Circuit

/-- The tokens of a text, one a line, without the blanks around them. -/
def tokenChars (cs : List Char) : List (List Char) := ((splitLines cs).map trim).filter isTokenLine

section TokenChars

variable {c : Char} {cs ws : List Char}

theorem tokenLines_eq (text : String) :
    tokenLines text = (tokenChars text.toList).map String.ofList := rfl

theorem isTokenLine_cons (hc : c ≠ '/') (rest : List Char) : isTokenLine (c :: rest) := by
  rw [isTokenLine, List.isPrefixOf, beq_false_of_ne (Ne.symm hc), Bool.false_and]
  rfl

theorem tokenChars_of_notMem (h : '\n' ∉ cs) : tokenChars cs = [trim cs].filter isTokenLine := by
  by_cases hcs : cs = []
  · rw [hcs]
    rfl
  · rw [tokenChars, splitLines_eq_singleton hcs h]
    rfl

theorem tokenChars_line (h : '\n' ∉ cs) (ds : List Char) :
    tokenChars (cs ++ '\n' :: ds) = tokenChars cs ++ tokenChars ds := by
  rw [tokenChars_of_notMem h, tokenChars, splitLines_of_notMem h, List.map_cons,
    ← List.singleton_append, List.filter_append]
  rfl

/-- The tokens of a text are those before and those after a line feed. -/
theorem tokenChars_append (cs ds : List Char) :
    tokenChars (cs ++ '\n' :: ds) = tokenChars cs ++ tokenChars ds := by
  induction cs using line_induction with
  | line cs h => exact tokenChars_line h ds
  | lineFeed as bs has ih =>
    rw [List.append_assoc, List.cons_append, tokenChars_line has, tokenChars_line has, ih,
      List.append_assoc]

/-- A blank in front of a text is in front of its first token, if there is one. -/
theorem tokenChars_cons_blank (hc : isBlank c) (cs : List Char) :
    tokenChars (c :: cs) = tokenChars cs := by
  have htrim : ∀ line, trim (c :: line) = trim line :=
    trim_blank_append (List.forall_mem_singleton.2 hc)
  rw [tokenChars, tokenChars, splitLines]
  split
  · rfl
  · cases hlines : splitLines cs with
    | nil =>
      simp only [List.map_singleton, htrim]
      rfl
    | cons line lines => simp only [List.map_cons, htrim]

theorem tokenChars_blank_append (hws : ∀ c ∈ ws, isBlank c) (cs : List Char) :
    tokenChars (ws ++ cs) = tokenChars cs := by
  induction ws with
  | nil => rfl
  | cons c ws ih =>
    obtain ⟨hc, hws⟩ := List.forall_mem_cons.1 hws
    rw [List.cons_append, tokenChars_cons_blank hc, ih hws]

/-- A blank behind a text is behind its last token, if there is one. -/
theorem tokenChars_concat_blank (hc : isBlank c) (cs : List Char) :
    tokenChars (cs ++ [c]) = tokenChars cs := by
  by_cases hfeed : c = '\n'
  · rw [hfeed, tokenChars_append]
    exact List.append_nil _
  induction cs using line_induction with
  | line cs h =>
    have hline : '\n' ∉ cs ++ [c] := by simp [h, Ne.symm hfeed]
    rw [tokenChars_of_notMem hline, tokenChars_of_notMem h,
      trim_append_of_blank (List.forall_mem_singleton.2 hc)]
  | lineFeed as bs has ih =>
    rw [List.append_assoc, List.cons_append, tokenChars_line has, tokenChars_line has, ih]

theorem tokenChars_of_blank (hws : ∀ c ∈ ws, isBlank c) : tokenChars ws = [] := by
  have hnil := tokenChars_blank_append hws []
  rwa [List.append_nil] at hnil

theorem tokenChars_append_of_blank (hws : ∀ c ∈ ws, isBlank c) (cs : List Char) :
    tokenChars (cs ++ ws) = tokenChars cs := by
  induction ws generalizing cs with
  | nil => rw [List.append_nil]
  | cons c ws ih =>
    obtain ⟨hc, hws⟩ := List.forall_mem_cons.1 hws
    rw [List.append_cons, ih hws, tokenChars_concat_blank hc]

/-- The blanks around a text are no part of its tokens. -/
theorem tokenChars_trim (cs : List Char) : tokenChars (trim cs) = tokenChars cs := by
  obtain ⟨us, vs, hcs, hus, hvs⟩ := exists_trim cs
  calc tokenChars (trim cs) = tokenChars (us ++ (trim cs ++ vs)) := by
        rw [tokenChars_blank_append hus, tokenChars_append_of_blank hvs]
    _ = tokenChars cs := congrArg tokenChars hcs.symm

/-- A token without a line feed between its ends is read as it is, without the blanks around it. -/
theorem tokenChars_token (htoken : isTokenLine (trim cs)) (hline : '\n' ∉ trim cs) :
    tokenChars cs = [trim cs] := by
  rw [← tokenChars_trim, tokenChars_of_notMem hline, trim_trim, List.filter_cons_of_pos htoken]
  rfl

end TokenChars

theorem toList_text (c : Circuit) : c.text.toList = c.tokens.flatMap (·.toList ++ ['\n']) := by
  simp [text, String.toList_join, List.flatMap_map]

theorem tokenChars_text (c : Circuit) :
    tokenChars c.text.toList = c.tokens.flatMap fun t => tokenChars t.toList := by
  rw [toList_text]
  induction c.tokens with
  | nil => rfl
  | cons t tokens ih =>
    rw [List.flatMap_cons, List.append_assoc, List.singleton_append, tokenChars_append, ih,
      List.flatMap_cons]

end Circuit

/-! ### Accepted tokens on lines -/

namespace Record

variable {r : Record Float} {t : String} {c : Char} {cs ds ws : List Char}

theorem isWritten_of_parse (h : Record.parse t = .ok r) : r.IsWritten t.toList :=
  parseFault_eq_ok_iff.1 (parse_eq_ok_iff.1 h)

theorem parse_ofList_iff : Record.parse (String.ofList cs) = .ok r ↔ r.IsWritten cs := by
  rw [parse_eq_ok_iff, String.toList_ofList, parseFault_eq_ok_iff]

theorem parse_trim (h : Record.parse t = .ok r) :
    Record.parse (String.ofList (trim t.toList)) = .ok r :=
  parse_ofList_iff.2 (isWritten_of_parse h).trim

theorem isTokenLine_trim (h : r.IsWritten cs) : Circuit.isTokenLine (trim cs) := by
  obtain ⟨c, rest, hcs, -, hslash, -⟩ := h.exists_trim_cons
  rw [hcs]
  exact Circuit.isTokenLine_cons hslash rest

/-- **The first line of a token on several lines** is read as a token and is none. -/
theorem first_line_of_isWritten (h : r.IsWritten cs) (hcs : trim cs = ds ++ '\n' :: ws) :
    Circuit.isTokenLine (trim ds) ∧ ∀ r' : Record Float, ¬ r'.IsWritten (trim ds) := by
  -- the line begins where the token does, so it loses only the blanks at its end
  obtain ⟨c, rest, hcons, hc, hslash, -⟩ := h.exists_trim_cons
  obtain ⟨ds, rfl⟩ : ∃ ds', ds = c :: ds' := by
    rw [hcs] at hcons
    cases ds with
    | nil =>
      obtain rfl := (List.cons.inj hcons).1
      exact absurd hc (by decide)
    | cons d ds => exact ⟨ds, congrArg (· :: ds) (List.cons.inj hcons).1⟩
  have hline : trim (c :: ds) = c :: trimEnd ds := trim_append_cons hc [] ds
  refine ⟨by rw [hline]; exact Circuit.isTokenLine_cons hslash _, fun r' h' => ?_⟩
  -- were it a token, the other lines would be blank, and a token does not end in blanks
  obtain ⟨bs, hbs, hblank⟩ := exists_trimEnd_append ds
  obtain ⟨d, more, hmore, hd⟩ : ∃ d more, bs ++ '\n' :: ws = d :: more ∧ isBlank d := by
    cases bs with
    | nil => exact ⟨_, _, rfl, by decide⟩
    | cons d bs => exact ⟨_, _, rfl, hblank d (List.mem_cons_self ..)⟩
  have hsplit : trim cs = trim (c :: ds) ++ d :: more := by
    rw [hcs, hline, ← hmore, List.cons_append, List.cons_append, ← List.append_assoc, ← hbs]
  have hafter : ∀ e ∈ d :: more, isBlank e :=
    List.forall_mem_cons.2 ⟨hd, h'.blank_of_append hd (hsplit ▸ h.trim)⟩
  have hends : trim cs = trim (c :: ds) := by
    rw [← trim_trim, hsplit, trim_append_of_blank hafter, trim_trim]
  have hlength := congrArg List.length (hends.symm.trans hsplit)
  rw [List.length_append, List.length_cons] at hlength
  omega

end Record

/-! ### Canonical files -/

namespace Circuit

variable {source : String} {c : Circuit}

/-- What is read from the text of a circuit with one line for each token. -/
theorem tokenLines_text (hvalid : c.validate = .ok ())
    (hlines : ∀ t ∈ c.tokens, '\n' ∉ trim t.toList) :
    tokenLines c.text = c.tokens.map fun t => String.ofList (trim t.toList) := by
  have htoken : ∀ t ∈ c.tokens, tokenChars t.toList = [trim t.toList] := by
    intro t ht
    obtain ⟨r, hr⟩ := validate_eq_ok_iff.1 hvalid t ht
    exact tokenChars_token (Record.isTokenLine_trim (Record.isWritten_of_parse hr)) (hlines t ht)
  rw [tokenLines_eq, tokenChars_text, List.flatMap_congr htoken, ← List.map_eq_flatMap,
    List.map_map]
  rfl

/-- The text of a circuit with a token on several lines holds a line that is no token. -/
theorem exists_tokenLine_of_mem (hvalid : c.validate = .ok ()) {t : String} (ht : t ∈ c.tokens)
    (hline : '\n' ∈ trim t.toList) :
    ∃ line ∈ tokenLines c.text, ∀ r, Record.parse line ≠ .ok r := by
  obtain ⟨r, hr⟩ := validate_eq_ok_iff.1 hvalid t ht
  obtain ⟨ds, ws, hcs, hds⟩ := List.eq_append_cons_of_mem hline
  obtain ⟨htoken, hnone⟩ := Record.first_line_of_isWritten (Record.isWritten_of_parse hr) hcs
  have hmem : trim ds ∈ tokenChars t.toList := by
    rw [← tokenChars_trim, hcs, tokenChars_append, tokenChars_of_notMem hds,
      List.filter_cons_of_pos htoken]
    exact List.mem_cons_self ..
  refine ⟨String.ofList (trim ds), ?_, fun r h => hnone r (Record.parse_ofList_iff.1 h)⟩
  rw [tokenLines_eq, tokenChars_text]
  exact List.mem_map_of_mem (List.mem_flatMap.2 ⟨t, ht, hmem⟩)

theorem notMem_of_mem_tokenLines {t : String} (ht : t ∈ tokenLines source) :
    '\n' ∉ trim t.toList := by
  obtain ⟨cs, hcs, rfl⟩ := List.mem_map.1 ht
  obtain ⟨line, hline, rfl⟩ := List.mem_map.1 (List.mem_of_mem_filter hcs)
  rw [String.toList_ofList, trim_trim]
  obtain ⟨us, vs, hparts, -⟩ := exists_trim line
  intro hmem
  refine notMem_of_mem_splitLines hline ?_
  rw [hparts]
  exact List.mem_append_right _ (List.mem_append_left _ hmem)

theorem gates_map_trim (hvalid : c.validate = .ok ()) :
    gates ⟨c.tokens.map fun t => String.ofList (trim t.toList)⟩ = c.gates := by
  obtain ⟨rs, hrs, -⟩ := map_eq_ok hvalid
  rw [hrs]
  exact gates_eq_ok_iff.2 (List.forall₂_map_left_iff.2
    ((gates_eq_ok_iff.1 hrs).imp fun _ _ h => Record.parse_trim h))

theorem ofLines_eq_ok_iff :
    ofLines source = .ok c ↔ c = ⟨tokenLines source⟩ ∧ c.validate = .ok () := by
  constructor
  · intro h
    obtain ⟨⟨⟩, hvalid, h⟩ := bind_eq_ok h
    obtain rfl := Except.ok.inj h
    exact ⟨rfl, hvalid⟩
  · rintro ⟨rfl, hvalid⟩
    rw [ofLines, hvalid]
    rfl

end Circuit

namespace Document

variable {source : String} {c : Circuit}

theorem read_canonical_iff :
    read .canonical source = .ok (.canonical c) ↔ readCanonical source = .ok c := by
  rw [read]
  cases readCanonical source with
  | error e => exact iff_of_false nofun nofun
  | ok c' => exact ⟨fun h => by cases h; rfl, fun h => by cases h; rfl⟩

theorem read_list_iff (h : isJsonList source) :
    read .canonical source = .ok (.canonical c) ↔
      (Json.parse? source >>= Circuit.ofJson?) = some c ∧ c.validate = .ok () := by
  rw [read_canonical_iff, readCanonical, if_pos h]
  cases Json.parse? source >>= Circuit.ofJson? with
  | none => exact iff_of_false nofun nofun
  | some c' =>
    constructor
    · intro hread
      obtain ⟨⟨⟩, hvalid, rfl⟩ := map_eq_ok (mapError_eq_ok hread)
      exact ⟨rfl, hvalid⟩
    · rintro ⟨hc, hvalid⟩
      obtain rfl := Option.some.inj hc
      dsimp only
      rw [hvalid]
      rfl

theorem read_lines_iff (h : isJsonList source = false) :
    read .canonical source = .ok (.canonical c) ↔
      c = ⟨Circuit.tokenLines source⟩ ∧ c.validate = .ok () := by
  rw [read_canonical_iff, readCanonical, h, ← Circuit.ofLines_eq_ok_iff]
  exact ⟨mapError_eq_ok, fun h => by rw [if_neg Bool.false_ne_true, h]; rfl⟩

theorem validate_of_read (h : read .canonical source = .ok (.canonical c)) :
    c.validate = .ok () := by
  cases hsource : isJsonList source with
  | true => exact ((read_list_iff hsource).1 h).2
  | false => exact ((read_lines_iff hsource).1 h).2

theorem isJsonList_text (hvalid : c.validate = .ok ()) : isJsonList c.text = false := by
  rw [isJsonList, Circuit.toList_text]
  cases htokens : c.tokens with
  | nil => rfl
  | cons t tokens =>
    obtain ⟨r, hr⟩ := Circuit.validate_eq_ok_iff.1 hvalid t (htokens ▸ List.mem_cons_self ..)
    obtain ⟨d, rest, hd, hblank, -, hbracket⟩ := (Record.isWritten_of_parse hr).exists_trim_cons
    obtain ⟨us, vs, hparts, hus, -⟩ := exists_trim t.toList
    rw [List.flatMap_cons, hparts, hd, List.append_assoc, List.append_assoc, List.append_assoc,
      List.cons_append, trimStart_append_cons hblank, trimStart_of_blank hus]
    simpa using hbracket

end Document

/-- **Canonical files.** What an accepted circuit is written as is read as a circuit with the same
gates exactly if no token has a line feed between its ends. That is so for every circuit that was
read from lines. -/
theorem canonical_file_round_trip {source : String} {c : Circuit}
    (h : Document.read .canonical source = .ok (.canonical c)) (layout : Json.Layout) :
    ((∃ c', Document.read .canonical ((Document.canonical c).render layout) =
        .ok (.canonical c') ∧ c'.gates = c.gates) ↔
      ∀ t ∈ c.tokens, '\n' ∉ trim t.toList) ∧
    (Document.isJsonList source = false → ∀ t ∈ c.tokens, '\n' ∉ trim t.toList) := by
  have hvalid := Document.validate_of_read h
  have hread {c'} : Document.read .canonical ((Document.canonical c).render layout) =
      .ok (.canonical c') ↔ c' = ⟨Circuit.tokenLines c.text⟩ ∧ c'.validate = .ok () :=
    Document.read_lines_iff (Document.isJsonList_text hvalid)
  refine ⟨⟨?_, fun hlines => ?_⟩, fun hsource t ht => ?_⟩
  · rintro ⟨c', hc', -⟩ t ht hline
    obtain ⟨rfl, hvalid'⟩ := hread.1 hc'
    obtain ⟨line, hmem, hnone⟩ := Circuit.exists_tokenLine_of_mem hvalid ht hline
    obtain ⟨r, hr⟩ := Circuit.validate_eq_ok_iff.1 hvalid' line hmem
    exact hnone r hr
  · have hgates := Circuit.gates_map_trim hvalid
    rw [← Circuit.tokenLines_text hvalid hlines] at hgates
    refine ⟨_, hread.2 ⟨rfl, ?_⟩, hgates⟩
    rw [Circuit.validate, hgates]
    exact hvalid
  · obtain ⟨rfl, -⟩ := (Document.read_lines_iff hsource).1 h
    exact Circuit.notMem_of_mem_tokenLines ht

/-- Line feeds at the ends of a token are blanks like others. -/
theorem canonical_file_round_trip_blank :
    let c : Circuit := ⟨[" h(0)\n", "CX\t(0, 1)"]⟩
    Document.read .canonical "[\" h(0)\\n\", \"CX\\t(0, 1)\"]" = .ok (.canonical c) ∧
      ∃ c', Document.read .canonical ((Document.canonical c).render .compact) =
        .ok (.canonical c') ∧ c'.gates = c.gates := by
  have hread := (Document.read_list_iff (by decide +kernel)).2
    ⟨(by decide +kernel : (Json.parse? "[\" h(0)\\n\", \"CX\\t(0, 1)\"]" >>= Circuit.ofJson?) =
      some ⟨[" h(0)\n", "CX\t(0, 1)"]⟩), by decide +kernel⟩
  exact ⟨hread, (canonical_file_round_trip hread .compact).1.2 (by decide +kernel)⟩

/-- A token on two lines is accepted in a list, and what it is written as is not read again. -/
theorem canonical_list_line_feed :
    ∃ c, Document.read .canonical "[\"H(\\n0)\"]" = .ok (.canonical c) ∧
      ∀ d, Document.read .canonical ((Document.canonical c).render .compact) ≠ .ok d := by
  refine ⟨⟨["H(\n0)"]⟩, (Document.read_list_iff (by decide +kernel)).2
    ⟨by decide +kernel, by decide +kernel⟩, fun d h => ?_⟩
  obtain ⟨c', -, rfl⟩ := map_eq_ok h
  obtain ⟨rfl, hvalid⟩ := (Document.read_lines_iff (by decide +kernel)).1 h
  exact absurd hvalid (by decide +kernel)

end CircuitExchange
