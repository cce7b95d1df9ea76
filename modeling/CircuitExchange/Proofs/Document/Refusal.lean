import Mathlib
import CircuitExchange.Proofs.Order.NormalForm
import CircuitExchange.Proofs.Register.Import

/-!
Which circuits the three conversions refuse, and for what reason. Each of them reads the tokens, and
then checks, translates and stores one record after the other. Only the check can fail: a record
that passes it has a native gate, and that gate has a place. The register is the one exception, as
no register has the largest number as an index.

* `Circuit.Sound`: every token parses to a record that passes its check.
* `Circuit.FirstFault`: the error of the first token or record at fault, said apart from the
  conversions.
* `TimedCircuit.Compact`: no entry is later than the number of entries before it, so the times do
  not run out.
* `conversions_agree`: what is accepted, and the common error of what is not.
-/

namespace CircuitExchange

/-! ### Faults -/

namespace Circuit

/-- Every token parses, and every record has the numbers of qubits and angles its gate needs and no
qubit twice. -/
def Sound (c : Circuit) : Prop :=
  ∀ t ∈ c.tokens, ∃ r, Record.parse t = .ok r ∧ r.checkArity = .ok ()

/-- No index is the largest number, which has no number above it to count the qubits by. -/
def Countable (c : Circuit) : Prop :=
  ∀ t ∈ c.tokens, ∀ r, Record.parse t = .ok r → (0xffffffff : Qubit) ∉ r.qubits

/-- The first fault of a circuit. If a token does not parse, it is that of the first such token,
with its index and its text. Otherwise it is that of the first record that does not pass its
check. -/
inductive FirstFault (c : Circuit) : ConversionError → Prop
  | token {pre post : List String} {t : String} {e : TokenError}
      (tokens : c.tokens = pre ++ t :: post)
      (parsed : ∀ t ∈ pre, ∃ r, Record.parse t = .ok r)
      (fault : Record.parse t = .error e) : FirstFault c (.circuit ⟨pre.length, t, e⟩)
  | record {pre post : List (Record Float)} {r : Record Float} {e : RecordError}
      (gates : c.gates = .ok (pre ++ r :: post))
      (checked : ∀ r ∈ pre, r.checkArity = .ok ())
      (fault : r.checkArity = .error e) : FirstFault c (.record e)

end Circuit

namespace Circuit

variable {c : Circuit} {rs : List (Record Float)}

theorem parseFrom_eq_error {index : Nat} {pre post : List String} {t : String} {e : TokenError}
    (hpre : ∀ t ∈ pre, ∃ r, Record.parse t = .ok r) (ht : Record.parse t = .error e) :
    parseFrom index (pre ++ t :: post) = .error ⟨index + pre.length, t, e⟩ := by
  induction pre generalizing index with
  | nil =>
    rw [List.nil_append, parseFrom, ht]
    rfl
  | cons t' pre ih =>
    obtain ⟨⟨r, hr⟩, hpre⟩ := List.forall_mem_cons.1 hpre
    rw [List.cons_append, parseFrom, hr, ih hpre, List.length_cons, Nat.add_right_comm]
    rfl

theorem sound_iff_of_gates (h : c.gates = .ok rs) : c.Sound ↔ ∀ r ∈ rs, r.WellFormed := by
  refine forall_mem_iff_of_forall₂ (gates_eq_ok_iff.1 h) fun {t r} hr => ?_
  rw [hr, ← r.checkArity_eq_ok_iff]
  constructor
  · rintro ⟨r', hr', harity⟩
    obtain rfl := Except.ok.inj hr'
    exact harity
  · intro harity
    exact ⟨r, rfl, harity⟩

theorem countable_iff_of_gates (h : c.gates = .ok rs) :
    c.Countable ↔ ∀ r ∈ rs, (0xffffffff : Qubit) ∉ r.qubits := by
  refine forall_mem_iff_of_forall₂ (gates_eq_ok_iff.1 h) fun {t r} hr => ?_
  rw [hr]
  constructor
  · intro hcount
    exact hcount r rfl
  · rintro hcount r' hr'
    obtain rfl := Except.ok.inj hr'
    exact hcount

theorem exists_gates_of_sound (h : c.Sound) : ∃ rs, c.gates = .ok rs ∧ ∀ r ∈ rs, r.WellFormed := by
  obtain ⟨rs, hrs, -⟩ := map_eq_ok (validate_eq_ok_iff.2 fun t ht => (h t ht).imp fun _ hr => hr.1)
  exact ⟨rs, hrs, (sound_iff_of_gates hrs).1 h⟩

/-- **A circuit that is not sound has a first fault.** -/
theorem exists_firstFault (h : ¬ c.Sound) : ∃ e, c.FirstFault e := by
  by_cases hparsed : ∀ t ∈ c.tokens, ∃ r, Record.parse t = .ok r
  · obtain ⟨rs, hrs, -⟩ := map_eq_ok (validate_eq_ok_iff.2 hparsed)
    have hchecked : ¬ ∀ r ∈ rs, ∃ u, r.checkArity = .ok u := fun hall =>
      h ((sound_iff_of_gates hrs).2 fun r hr => r.checkArity_eq_ok_iff.1 (hall r hr).choose_spec)
    obtain ⟨pre, r, post, e, rfl, hpre, hr⟩ := exists_first_error hchecked
    exact ⟨_, .record hrs (fun r hr => (hpre r hr).choose_spec) hr⟩
  · obtain ⟨pre, t, post, e, htokens, hpre, ht⟩ := exists_first_error hparsed
    exact ⟨_, .token htokens hpre ht⟩

/-- **Circuits are refused for their first fault** if every record that does not pass its check is
refused for that, after well formed ones. -/
theorem eq_error_of_firstFault {σ : Type} {make : List (Record Float) → Except ConversionError σ}
    (hmake : ∀ pre r post e, c.gates = .ok (pre ++ r :: post) → (∀ r ∈ pre, r.WellFormed) →
      r.checkArity = .error e → make (pre ++ r :: post) = .error (.record e))
    {e : ConversionError} (h : c.FirstFault e) :
    c.gates.mapError .circuit >>= make = .error e := by
  cases h with
  | token htokens hparsed hfault =>
    rw [gates, htokens, parseFrom_eq_error hparsed hfault, Nat.zero_add]
    rfl
  | record hgates hchecked hfault =>
    rw [hgates]
    exact hmake _ _ _ _ hgates (fun r hr => r.checkArity_eq_ok_iff.1 (hchecked r hr)) hfault

end Circuit

/-! ### Refused records -/

section Records

variable {α : Type} [Scalar α] {r : Record α} {e : RecordError}

theorem MomentCircuit.appendRecord_eq_error (m : MomentCircuit α) (h : r.checkArity = .error e) :
    m.appendRecord r = .error (.record e) := by
  rw [appendRecord, h]
  rfl

theorem TimedCircuit.addRecord_eq_error (t : TimedCircuit α) (h : r.checkArity = .error e) :
    t.addRecord r = .error (.record e) := by
  rw [addRecord, h]
  rfl

omit [Scalar α] in
theorem RegisterCircuit.appendRecord_eq_error (c : RegisterCircuit α)
    (h : r.checkArity = .error e) : c.appendRecord r = .error (.record e) := by
  rw [appendRecord, h]
  rfl

end Records

/-! ### Circuits of timed gates -/

namespace TimedCircuit

variable {α : Type}

/-- The entries stand in their order, at times below their number. -/
structure Compact (t : TimedCircuit α) : Prop where
  scheduled : t.Scheduled
  lt_length : ∀ e ∈ t.entries, e.time.toNat < t.entries.length

theorem compact_empty : (empty : TimedCircuit α).Compact := ⟨scheduled_empty, by simp [empty]⟩

/-- The first free time is at most the number of entries. -/
theorem Compact.toNat_freeTime_le {t : TimedCircuit α} (h : t.Compact)
    (hlength : t.entries.length < 2 ^ 64) (qs : List Qubit) :
    (t.freeTime qs).toNat ≤ t.entries.length := by
  have hsize : (UInt64.ofNat t.entries.length).toNat = t.entries.length :=
    UInt64.toNat_ofNat_of_lt' hlength
  have hle : t.freeTime qs ≤ UInt64.ofNat t.entries.length := by
    refine (foldl_max_le_iff UInt64.max_def _ _ _ _).2 ⟨UInt64.zero_le, fun e he => ?_⟩
    have he := (List.mem_filter.1 he).1
    rw [UInt64.le_iff_toNat_le, hsize, toNat_nextTime (h.scheduled.inTime e he)]
    exact h.lt_length e he
  rw [UInt64.le_iff_toNat_le, hsize] at hle
  exact hle

variable [Scalar α] {t : TimedCircuit α} {r : Record α}

theorem exists_gate_ofRecord (h : r.WellFormed) : ∃ gate, TimedGate.ofRecord r = .ok gate := by
  obtain ⟨name, params, qubits⟩ := r
  cases name
  case rx | ry | rz =>
    obtain ⟨theta, htheta⟩ := h.exists_angle rfl
    rw [TimedGate.ofRecord, htheta]
    exact ⟨_, rfl⟩
  all_goals exact ⟨_, rfl⟩

/-- **A well formed record is added** as long as there are fewer entries than times. -/
theorem Compact.exists_addRecord (h : t.Compact) (hlength : t.entries.length < 2 ^ 64 - 1)
    (hr : r.WellFormed) :
    ∃ t', t.addRecord r = .ok t' ∧ t'.Compact ∧ t'.entries.length = t.entries.length + 1 := by
  obtain ⟨gate, hgate⟩ := exists_gate_ofRecord hr
  have hfree := h.toNat_freeTime_le (by omega) r.qubits
  have htime : t.freeTime r.qubits ≠ nextTime.lastTime := by
    intro heq
    rw [heq] at hfree
    exact absurd (Nat.lt_of_le_of_lt hfree hlength) (by decide)
  have hadd := (addRecord_eq_ok_iff h.scheduled).2 ⟨hr, htime, gate, hgate, rfl⟩
  have hcount := (insert_perm ⟨t.freeTime r.qubits, r.qubits, gate⟩ t.entries).length_eq
  refine ⟨_, hadd, ⟨(inserted_addRecord h.scheduled hadd).1, fun e he => ?_⟩, hcount⟩
  rw [hcount]
  rcases mem_insert.1 he with rfl | he
  · exact Nat.lt_succ_of_le hfree
  · exact Nat.lt_succ_of_lt (h.lt_length e he)

/-- **Circuits of timed gates accept all well formed records**, as long as there are fewer records
than times. -/
theorem exists_ofRecords {rs : List (Record α)} (h : ∀ r ∈ rs, r.WellFormed)
    (hlength : rs.length < 2 ^ 64 - 1) : ∃ t, ofRecords rs = .ok t := by
  have hfold : ∀ t : TimedCircuit α, t.Compact → t.entries.length + rs.length < 2 ^ 64 - 1 →
      ∃ t', rs.foldlM addRecord t = .ok t' := by
    clear hlength
    induction rs with
    | nil => exact fun t _ _ => ⟨t, rfl⟩
    | cons r rs ih =>
      intro t ht hlength
      obtain ⟨hr, hrs⟩ := List.forall_mem_cons.1 h
      rw [List.length_cons] at hlength
      obtain ⟨t₁, ht₁, hcompact, hcount⟩ := ht.exists_addRecord (by omega) hr
      obtain ⟨t', ht'⟩ := ih hrs t₁ hcompact (by omega)
      refine ⟨t', ?_⟩
      rw [List.foldlM_cons, ht₁]
      exact ht'
  exact hfold empty compact_empty (by rwa [empty, List.length_nil, Nat.zero_add])

end TimedCircuit

/-! ### Register circuits -/

theorem lt_impliedQubitCount_iff {qs : List Qubit} {q : Qubit} (hq : q ∈ qs) :
    q < impliedQubitCount qs ↔ q ≠ 0xffffffff := by
  have hlt := q.toNat_lt
  have hle := UInt32.le_iff_toNat_le.1 (impliedQubitCount_le_iff.1 (UInt32.le_refl _) q hq)
  have hnext := toNat_next_eq q
  have hlast : q = 0xffffffff ↔ q.toNat = 2 ^ 32 - 1 := UInt32.toNat_inj.symm
  have hcount := (impliedQubitCount qs).toNat_lt
  rw [ne_eq, hlast, UInt32.lt_iff_toNat_lt]
  omega

/-- The implied register has all indices but the largest number. -/
theorem Circuit.forall_lt_sizeOf_iff {rs : List (Record Float)} :
    (∀ r ∈ rs, ∀ q ∈ r.qubits, q < Circuit.sizeOf rs) ↔
      ∀ r ∈ rs, (0xffffffff : Qubit) ∉ r.qubits := by
  refine forall₂_congr fun r hr => ?_
  have hmem : ∀ q ∈ r.qubits, q ∈ rs.flatMap Record.qubits := fun q hq =>
    List.mem_flatMap.2 ⟨r, hr, hq⟩
  constructor
  · intro h hlast
    exact (lt_impliedQubitCount_iff (hmem _ hlast)).1 (h _ hlast) rfl
  · intro h q hq
    refine (lt_impliedQubitCount_iff (hmem q hq)).2 ?_
    rintro rfl
    exact h hq

/-! ### Which circuits are accepted -/

section Accepted

variable {c : Circuit}

/-- What refuses every first fault accepts sound circuits alone. -/
theorem Circuit.exists_ok_iff_sound {σ : Type} {result : Except ConversionError σ}
    (hsound : c.Sound → ∃ s, result = .ok s) (hfault : ∀ e, c.FirstFault e → result = .error e) :
    (∃ s, result = .ok s) ↔ c.Sound := by
  refine ⟨fun ⟨s, hs⟩ => ?_, hsound⟩
  by_contra h
  obtain ⟨e, he⟩ := exists_firstFault h
  cases hs.symm.trans (hfault e he)

theorem MomentCircuit.ofCircuit_eq_error {e : ConversionError} (h : c.FirstFault e) :
    MomentCircuit.ofCircuit c = .error e := by
  refine Circuit.eq_error_of_firstFault (fun pre r post e _ hpre hr => ?_) h
  obtain ⟨m, hm⟩ := exists_ofRecords hpre
  exact foldlM_eq_error hm (m.appendRecord_eq_error hr)

theorem MomentCircuit.exists_ofCircuit_iff :
    (∃ m, MomentCircuit.ofCircuit c = .ok m) ↔ c.Sound := by
  refine Circuit.exists_ok_iff_sound (fun h => ?_) fun e => ofCircuit_eq_error
  obtain ⟨rs, hrs, hwellFormed⟩ := Circuit.exists_gates_of_sound h
  rw [ofCircuit, hrs]
  exact exists_ofRecords hwellFormed

theorem Circuit.length_of_gates {rs : List (Record Float)} (h : c.gates = .ok rs) :
    rs.length = c.tokens.length := (gates_eq_ok_iff.1 h).length_eq.symm

theorem TimedCircuit.ofCircuit_eq_error (hlength : c.tokens.length < 2 ^ 64 - 1)
    {e : ConversionError} (h : c.FirstFault e) : TimedCircuit.ofCircuit c = .error e := by
  refine Circuit.eq_error_of_firstFault (fun pre r post e hgates hpre hr => ?_) h
  have hcount := Circuit.length_of_gates hgates
  rw [List.length_append] at hcount
  obtain ⟨t, ht⟩ := exists_ofRecords hpre (by omega)
  exact foldlM_eq_error ht (t.addRecord_eq_error hr)

theorem TimedCircuit.exists_ofCircuit_iff (hlength : c.tokens.length < 2 ^ 64 - 1) :
    (∃ t, TimedCircuit.ofCircuit c = .ok t) ↔ c.Sound := by
  refine Circuit.exists_ok_iff_sound (fun h => ?_) fun e => ofCircuit_eq_error hlength
  obtain ⟨rs, hrs, hwellFormed⟩ := Circuit.exists_gates_of_sound h
  rw [ofCircuit, hrs]
  exact exists_ofRecords hwellFormed (Circuit.length_of_gates hrs ▸ hlength)

theorem RegisterCircuit.ofCircuit_eq_error (hcount : c.Countable) {e : ConversionError}
    (h : c.FirstFault e) : RegisterCircuit.ofCircuit c = .error e := by
  refine Circuit.eq_error_of_firstFault (fun pre r post e hgates hpre hr => ?_) h
  have hlt := Circuit.forall_lt_sizeOf_iff.2 ((Circuit.countable_iff_of_gates hgates).1 hcount)
  obtain ⟨insts, hinsts⟩ := RegisterInstruction.exists_forall₂_stores fun r hr =>
    ⟨hpre r hr, hlt r (List.mem_append_left _ hr)⟩
  exact foldlM_eq_error (foldlM_appendRecord_eq_ok_iff.2 ⟨insts, hinsts, rfl⟩)
    (appendRecord_eq_error _ hr)

theorem RegisterCircuit.exists_ofCircuit_iff :
    (∃ r, RegisterCircuit.ofCircuit c = .ok r) ↔ c.Sound ∧ c.Countable := by
  constructor
  · rintro ⟨r, hr⟩
    obtain ⟨rs, hrs, hr⟩ := bind_eq_ok hr
    have hgates := mapError_eq_ok hrs
    have hall := exists_ofRecords_iff.1 ⟨r, hr⟩
    exact ⟨(Circuit.sound_iff_of_gates hgates).2 fun r hr => (hall r hr).1,
      (Circuit.countable_iff_of_gates hgates).2
        (Circuit.forall_lt_sizeOf_iff.1 fun r hr => (hall r hr).2)⟩
  · rintro ⟨hsound, hcount⟩
    obtain ⟨rs, hrs, hwellFormed⟩ := Circuit.exists_gates_of_sound hsound
    have hlt := Circuit.forall_lt_sizeOf_iff.2 ((Circuit.countable_iff_of_gates hrs).1 hcount)
    rw [ofCircuit, hrs]
    exact exists_ofRecords_iff.2 fun r hr => ⟨hwellFormed r hr, hlt r hr⟩

end Accepted

/-- **The conversions agree on what they accept and on what is wrong.** Circuits of moments and of
timed gates accept exactly the sound circuits, and register circuits those of them that have no
index without a number above it. What is not sound is refused for its first fault, by a register
circuit as well unless there is such an index. -/
theorem conversions_agree {c : Circuit} (h : c.tokens.length < 2 ^ 64 - 1) :
    ((∃ m, MomentCircuit.ofCircuit c = .ok m) ↔ c.Sound) ∧
      ((∃ t, TimedCircuit.ofCircuit c = .ok t) ↔ c.Sound) ∧
      ((∃ r, RegisterCircuit.ofCircuit c = .ok r) ↔ c.Sound ∧ c.Countable) ∧
      (¬ c.Sound → ∃ e, c.FirstFault e ∧ MomentCircuit.ofCircuit c = .error e ∧
        TimedCircuit.ofCircuit c = .error e ∧
          (c.Countable → RegisterCircuit.ofCircuit c = .error e)) := by
  refine ⟨MomentCircuit.exists_ofCircuit_iff, TimedCircuit.exists_ofCircuit_iff h,
    RegisterCircuit.exists_ofCircuit_iff, fun hsound => ?_⟩
  obtain ⟨e, he⟩ := Circuit.exists_firstFault hsound
  exact ⟨e, he, MomentCircuit.ofCircuit_eq_error he, TimedCircuit.ofCircuit_eq_error h he,
    fun hcount => RegisterCircuit.ofCircuit_eq_error hcount he⟩

/-- A repeated qubit before a gate with one qubit too many. -/
theorem conversions_agree_two_faults :
    ∃ e, Circuit.FirstFault ⟨["H(0)", "CX(1, 1)", "X(0, 1)"]⟩ e ∧
      MomentCircuit.ofCircuit ⟨["H(0)", "CX(1, 1)", "X(0, 1)"]⟩ = .error e ∧
      TimedCircuit.ofCircuit ⟨["H(0)", "CX(1, 1)", "X(0, 1)"]⟩ = .error e ∧
      RegisterCircuit.ofCircuit ⟨["H(0)", "CX(1, 1)", "X(0, 1)"]⟩ = .error e := by
  generalize hc : (⟨["H(0)", "CX(1, 1)", "X(0, 1)"]⟩ : Circuit) = c
  have hlength : c.tokens.length < 2 ^ 64 - 1 := by
    rw [← hc]
    decide
  obtain ⟨hmoment, -, -, hfault⟩ := conversions_agree hlength
  have hgates : c.gates = .ok [⟨.h, [], [0]⟩, ⟨.cx, [], [1, 1]⟩, ⟨.x, [], [0, 1]⟩] := by
    rw [← hc]
    decide +kernel
  have hcount : c.Countable := by
    rw [Circuit.countable_iff_of_gates hgates]
    decide
  have hsound : ¬ c.Sound := by
    rw [Circuit.sound_iff_of_gates hgates]
    intro h
    have hnodup := (h ⟨.cx, [], [1, 1]⟩ (by simp)).nodup
    simp at hnodup
  obtain ⟨e, he, hm, ht, hr⟩ := hfault hsound
  exact ⟨e, he, hm, ht, hr hcount⟩

end CircuitExchange
