import Mathlib
import CircuitExchange.Document.Basic
import CircuitExchange.Proofs.Order.NormalForm
import CircuitExchange.Proofs.Register.Import

/-!
Tours through the formats preserve a circuit. Every conversion goes through the canonical form, and
every format stores the records it is given, perhaps in another order, and exports calls of them. So
a tour only exchanges gates on different qubits and only changes angles; without rotations there is
no angle that could keep a token from being read.

* `Circuit.Carries`: what the canonical form of a converted circuit has kept of the records.
* `Document.exists_carries`: one conversion.
* `Document.exists_ofCircuit`: reordered records of an accepted circuit are accepted.
* `Document.carries_of_mem_tour`, `Document.tour_of_accepted`: all conversions of a tour.
* `tour_preserves_circuit`: the records, the size and the timed form after a tour.
-/

namespace CircuitExchange

/-! ### Exported calls -/

/-- A call of a record without angles is read as the record. -/
theorem GateCall.Exports.parse_of_plain {r : Record Float} {c : GateCall Float} (h : c.Exports r)
    (hplain : r.name.isRotation = false) : Record.parse c.token = .ok r := by
  obtain ⟨hname, hqubits⟩ := Prod.mk.inj h.heading
  have hparams := h.wellFormed.params_eq_nil hplain
  have hangles : c.angles = [] := by
    rw [← List.length_eq_zero_iff, h.angles, hparams]
    rfl
  have hrecord : c.record = r := by
    rw [record, hangles, hname, hqubits, List.map_nil, ← hparams]
  rw [← hrecord]
  refine parse_token_of_wellFormed h.wellFormed_record fun a ha => ?_
  rw [hangles] at ha
  exact absurd ha List.not_mem_nil

/-! ### What a conversion keeps -/

/-- The circuit has the names and qubits of the records up to exchanging neighbours on different
qubits, if its tokens parse. They do if there are no rotations, and then the records themselves are
the same. -/
structure Circuit.Carries (rs : List (Record Float)) (c : Circuit) : Prop where
  headings : ∀ rs', c.gates = .ok rs' →
    Reordered (Apart Prod.snd) (rs.map Record.heading) (rs'.map Record.heading)
  plain : (∀ r ∈ rs, r.name.isRotation = false) →
    ∃ rs', c.gates = .ok rs' ∧ Reordered (Apart Record.qubits) rs rs'

section Carries

variable {rs ks : List (Record Float)} {c c' : Circuit}

theorem carries_self (h : c.gates = .ok rs) : c.Carries rs where
  headings := by
    intro rs' hrs'
    obtain rfl := Except.ok.inj (h.symm.trans hrs')
    exact .refl _
  plain _ := ⟨rs, h, .refl rs⟩

theorem Circuit.Carries.trans (h : c.Carries rs) (hks : c.gates = .ok ks) (h' : c'.Carries ks) :
    c'.Carries rs where
  headings rs' hrs' := (h.headings ks hks).trans (h'.headings rs' hrs')
  plain hplain := by
    obtain ⟨ks', hks', hreordered⟩ := h.plain hplain
    obtain rfl := Except.ok.inj (hks.symm.trans hks')
    obtain ⟨rs', hrs', hreordered'⟩ := h'.plain fun r hr =>
      hplain r (hreordered.perm.mem_iff.2 hr)
    exact ⟨rs', hrs', hreordered.trans hreordered'⟩

/-- **Calls of reordered records carry the records.** -/
theorem carries_of_exports {call : Record Float → GateCall Float}
    (hreordered : Reordered (Apart Record.qubits) rs ks) (hcall : ∀ r ∈ ks, (call r).Exports r) :
    Circuit.Carries rs ⟨(ks.map call).map GateCall.token⟩ where
  headings := by
    intro rs' hrs'
    rw [headings_of_gates hcall hrs']
    exact reordered_headings hreordered
  plain := by
    intro hplain
    refine ⟨ks, ?_, hreordered⟩
    rw [Circuit.gates_eq_ok_iff, List.map_map, List.forall₂_map_left_iff]
    exact List.forall₂_same.2 fun r hr =>
      (hcall r hr).parse_of_plain (hplain r (hreordered.perm.mem_iff.2 hr))

/-- Exchanging names and qubits keeps the size. -/
theorem sizeOf_of_headings
    (h : Reordered (Apart Prod.snd) (rs.map Record.heading) (ks.map Record.heading)) :
    Circuit.sizeOf ks = Circuit.sizeOf rs := by
  have hqubits : ∀ rs : List (Record Float),
      rs.flatMap Record.qubits = (rs.map Record.heading).flatMap Prod.snd := by
    intro rs
    rw [List.flatMap_map]
    rfl
  rw [Circuit.sizeOf, Circuit.sizeOf, hqubits, hqubits]
  exact (impliedQubitCount_perm (h.perm.flatMap_right _)).symm

end Carries

/-! ### One conversion -/

section Conversion

variable {rs : List (Record Float)} {c : Circuit}

theorem checked_eq_ok_iff {c' : Circuit} :
    c.checked = .ok c' ↔ (∃ rs, c.gates = .ok rs) ∧ c' = c := by
  rw [Circuit.checked, Circuit.validate]
  cases hgates : c.gates with
  | error e => exact iff_of_false (fun h => by cases h) (by simp)
  | ok rs =>
    constructor
    · intro h
      exact ⟨⟨rs, rfl⟩, (Except.ok.inj h).symm⟩
    · rintro ⟨-, rfl⟩
      rfl

/-- **A circuit of moments exports what it was made of.** -/
theorem MomentCircuit.exists_carries {m : MomentCircuit Float} (h : ofRecords rs = .ok m) :
    ∃ c', m.toCircuit = .ok c' ∧ c'.Carries rs := by
  obtain ⟨ks, hreordered, hstored⟩ := reordered_ofRecords h
  have hwellFormed := ((List.forall₂_and_left ..).1 hstored).1
  refine ⟨_, ?_, carries_of_exports hreordered fun r hr => (hwellFormed r hr).exports_halfTurnCall⟩
  rw [toCircuit, calls_eq hstored]
  rfl

/-- **A register circuit exports what it was made of.** -/
theorem RegisterCircuit.exists_carries {r : RegisterCircuit Float} (h : ofRecords rs = .ok r) :
    ∃ c', r.toCircuit = .ok c' ∧ c'.Carries rs := by
  have hrecords := exists_ofRecords_iff.1 ⟨r, h⟩
  refine ⟨⟨(rs.map Record.call).map GateCall.token⟩, ?_,
    carries_of_exports (.refl rs) fun r hr => ⟨(hrecords r hr).1, rfl, List.length_map _⟩⟩
  rw [toCircuit_eq (convertible_of_ofRecords h), exported_eq h]

/-- **A circuit of timed gates exports what it was made of.** -/
theorem TimedCircuit.exists_carries {t : TimedCircuit Float} (h : ofRecords rs = .ok t) :
    ∃ c', t.toCircuit = .ok c' ∧ c'.Carries rs := by
  obtain ⟨-, ks, hreordered, hstored⟩ := reordered_ofRecords h
  have hwellFormed := ((List.forall₂_and_left ..).1 hstored).1
  refine ⟨⟨(ks.map fun r => r.redoubled.call).map GateCall.token⟩, ?_,
    carries_of_exports hreordered fun r hr => (hwellFormed r hr).exports_redoubled⟩
  rw [toCircuit, records_eq hstored, ok_bind, Circuit.ofRecords, List.map_map, List.map_map]
  exact congrArg (fun tokens => Except.ok (Circuit.mk tokens))
    (List.map_congr_left fun r _ => r.redoubled.token_call.symm)

namespace Document

/-- **A conversion carries the records of the circuit**, and only circuits with records are
converted. -/
theorem exists_carries {format : Format} {d : Document} (h : ofCircuit format c = .ok d) :
    ∃ rs c', c.gates = .ok rs ∧ d.toCircuit = .ok c' ∧ c'.Carries rs := by
  cases format with
  | canonical =>
    obtain ⟨c', hc', rfl⟩ := map_eq_ok h
    obtain ⟨⟨rs, hrs⟩, rfl⟩ := checked_eq_ok_iff.1 hc'
    exact ⟨rs, c', hrs, hc', carries_self hrs⟩
  | moment =>
    obtain ⟨m, hm, rfl⟩ := map_eq_ok h
    obtain ⟨rs, hrs, hm⟩ := bind_eq_ok hm
    obtain ⟨c', hc', hcarries⟩ := MomentCircuit.exists_carries hm
    exact ⟨rs, c', mapError_eq_ok hrs, hc', hcarries⟩
  | register =>
    obtain ⟨r, hr, rfl⟩ := map_eq_ok h
    obtain ⟨rs, hrs, hr⟩ := bind_eq_ok hr
    obtain ⟨c', hc', hcarries⟩ := RegisterCircuit.exists_carries hr
    exact ⟨rs, c', mapError_eq_ok hrs, hc', hcarries⟩
  | timed =>
    obtain ⟨t, ht, rfl⟩ := map_eq_ok h
    obtain ⟨rs, hrs, ht⟩ := bind_eq_ok ht
    obtain ⟨c', hc', hcarries⟩ := TimedCircuit.exists_carries ht
    exact ⟨rs, c', mapError_eq_ok hrs, hc', hcarries⟩

/-- **Reordered records of an accepted circuit are accepted in every format**, and made into the
same circuit of timed gates. -/
theorem exists_ofCircuit {ks : List (Record Float)} {r : RegisterCircuit Float}
    {t : TimedCircuit Float} (hr : RegisterCircuit.ofRecords rs = .ok r)
    (ht : TimedCircuit.ofRecords rs = .ok t) (hks : c.gates = .ok ks)
    (hreordered : Reordered (Apart Record.qubits) rs ks) (format : Format) :
    ∃ d, ofCircuit format c = .ok d ∧ ∀ t', d = .timed t' → t' = t := by
  have hrecords := RegisterCircuit.exists_ofRecords_iff.1 ⟨r, hr⟩
  have hrecords' : ∀ r ∈ ks, r.WellFormed ∧ ∀ q ∈ r.qubits, q < Circuit.sizeOf ks := by
    intro r hr
    rw [← Circuit.sizeOf_perm hreordered.perm]
    exact hrecords r (hreordered.perm.mem_iff.2 hr)
  cases format with
  | canonical =>
    refine ⟨.canonical c, ?_, fun t' ht' => by cases ht'⟩
    rw [ofCircuit, checked_eq_ok_iff.2 ⟨⟨ks, hks⟩, rfl⟩]
    rfl
  | moment =>
    obtain ⟨m, hm⟩ := MomentCircuit.exists_ofRecords fun r hr => (hrecords' r hr).1
    refine ⟨.moment m, ?_, fun t' ht' => by cases ht'⟩
    rw [ofCircuit, MomentCircuit.ofCircuit, hks]
    exact congrArg (Except.map Document.moment) hm
  | register =>
    obtain ⟨r', hr'⟩ := RegisterCircuit.exists_ofRecords_iff.2 hrecords'
    refine ⟨.register r', ?_, fun t' ht' => by cases ht'⟩
    rw [ofCircuit, RegisterCircuit.ofCircuit, hks]
    exact congrArg (Except.map Document.register) hr'
  | timed =>
    have ht' := TimedCircuit.ofRecords_of_reordered hreordered ht
    refine ⟨.timed t, ?_, fun t' heq => (Document.timed.inj heq).symm⟩
    rw [ofCircuit, TimedCircuit.ofCircuit, hks]
    exact congrArg (Except.map Document.timed) ht'

theorem format_of_ofCircuit {format : Format} {d : Document} (h : ofCircuit format c = .ok d) :
    d.format = format := by
  cases format
  all_goals
    obtain ⟨_, -, rfl⟩ := map_eq_ok h
    rfl

end Document

end Conversion

/-! ### Tours -/

namespace Document

variable {d next : Document} {format : Format}

theorem tour_of_ok (h : d.convert format = .ok next) (path : List Format) :
    d.tour (format :: path) = (next :: (next.tour path).1, (next.tour path).2) := by
  rw [tour, h]

theorem tour_of_error {e : ConversionError} (h : d.convert format = .error e)
    (path : List Format) : d.tour (format :: path) = ([], some e) := by
  rw [tour, h]

/-- A tour without an error goes through the formats of its path. -/
theorem formats_of_tour {path : List Format} (h : (d.tour path).2 = none) :
    (d.tour path).1.map Document.format = path := by
  induction path generalizing d with
  | nil => rfl
  | cons format path ih =>
    cases hconvert : d.convert format with
    | error e =>
      rw [tour_of_error hconvert] at h
      cases h
    | ok next =>
      rw [tour_of_ok hconvert] at h ⊢
      obtain ⟨c, -, hnext⟩ := bind_eq_ok hconvert
      rw [List.map_cons, format_of_ofCircuit hnext, ih h]

section Carries

variable {rs : List (Record Float)} (h : ∃ c, d.toCircuit = .ok c ∧ c.Carries rs)
include h

/-- A conversion carries on the records. -/
theorem carries_convert (hconvert : d.convert format = .ok next) :
    ∃ c, next.toCircuit = .ok c ∧ c.Carries rs := by
  obtain ⟨c, hc, hcarries⟩ := h
  rw [convert, hc] at hconvert
  obtain ⟨ks, c', hks, hc', hcarries'⟩ := exists_carries hconvert
  exact ⟨c', hc', hcarries.trans hks hcarries'⟩

/-- **Every stop of a tour carries the records.** -/
theorem carries_of_mem_tour {path : List Format} {stop : Document}
    (hstop : stop ∈ (d.tour path).1) : ∃ c, stop.toCircuit = .ok c ∧ c.Carries rs := by
  induction path generalizing d with
  | nil => cases hstop
  | cons format path ih =>
    cases hconvert : d.convert format with
    | error e =>
      rw [tour_of_error hconvert] at hstop
      cases hstop
    | ok next =>
      rw [tour_of_ok hconvert] at hstop
      have hnext := carries_convert h hconvert
      rcases List.mem_cons.1 hstop with rfl | hstop
      · exact hnext
      · exact ih hnext hstop

/-- **A tour with the records of an accepted circuit without rotations has no error**, and comes to
one circuit of timed gates only. -/
theorem tour_of_accepted {r : RegisterCircuit Float} {t : TimedCircuit Float}
    (hr : RegisterCircuit.ofRecords rs = .ok r) (ht : TimedCircuit.ofRecords rs = .ok t)
    (hplain : ∀ r ∈ rs, r.name.isRotation = false) (path : List Format) :
    (d.tour path).2 = none ∧ ∀ t', .timed t' ∈ (d.tour path).1 → t' = t := by
  induction path generalizing d with
  | nil => exact ⟨rfl, nofun⟩
  | cons format path ih =>
    have ⟨c, hc, hcarries⟩ := h
    obtain ⟨ks, hks, hreordered⟩ := hcarries.plain hplain
    obtain ⟨next, hnext, hsame⟩ := exists_ofCircuit hr ht hks hreordered format
    have hconvert : d.convert format = .ok next := by
      rw [convert, hc]
      exact hnext
    obtain ⟨herror, htimed⟩ := ih (carries_convert h hconvert)
    rw [tour_of_ok hconvert]
    refine ⟨herror, fun t' ht' => ?_⟩
    rcases List.mem_cons.1 ht' with heq | ht'
    · exact hsame t' heq.symm
    · exact htimed t' ht'

end Carries

end Document

/-- **Tours preserve a circuit.** After every conversion of a tour that starts with an accepted
circuit, the canonical form has the names and qubits of its records up to exchanging neighbours on
different qubits, and the same size, if its tokens parse. A tour without an error goes through all
formats of its path. Without rotations there is no error, and every circuit of timed gates on the
way is the one that the first circuit is converted to. Circuits of moments accept whatever the other
two accept. -/
theorem tour_preserves_circuit {c : Circuit} {r : RegisterCircuit Float} {t : TimedCircuit Float}
    (hr : RegisterCircuit.ofCircuit c = .ok r) (ht : TimedCircuit.ofCircuit c = .ok t)
    (path : List Format) :
    ∃ rs, c.gates = .ok rs ∧
      (∀ d ∈ ((Document.canonical c).tour path).1, ∃ c', d.toCircuit = .ok c' ∧
        ∀ rs', c'.gates = .ok rs' →
          Reordered (Apart Prod.snd) (rs.map Record.heading) (rs'.map Record.heading) ∧
            c'.qubitCount = c.qubitCount) ∧
      (((Document.canonical c).tour path).2 = none →
        ((Document.canonical c).tour path).1.map Document.format = path) ∧
      ((∀ r ∈ rs, r.name.isRotation = false) →
        ((Document.canonical c).tour path).2 = none ∧
          ∀ t', .timed t' ∈ ((Document.canonical c).tour path).1 → t' = t) := by
  obtain ⟨rs, hrs, hr⟩ := bind_eq_ok hr
  obtain ⟨rs', hrs', ht⟩ := bind_eq_ok ht
  have hgates := mapError_eq_ok hrs
  obtain rfl := Except.ok.inj (hrs.symm.trans hrs')
  have hstart : ∃ c', (Document.canonical c).toCircuit = .ok c' ∧ c'.Carries rs :=
    ⟨c, checked_eq_ok_iff.2 ⟨⟨rs, hgates⟩, rfl⟩, carries_self hgates⟩
  refine ⟨rs, hgates, ?_, Document.formats_of_tour, ?_⟩
  · intro d hd
    obtain ⟨c', hc', hcarries⟩ := Document.carries_of_mem_tour hstart hd
    refine ⟨c', hc', fun rs' hrs' => ?_⟩
    have hheadings := hcarries.headings rs' hrs'
    refine ⟨hheadings, ?_⟩
    rw [Circuit.qubitCount, Circuit.qubitCount, hrs', hgates]
    exact congrArg Except.ok (sizeOf_of_headings hheadings)
  · intro hplain
    exact Document.tour_of_accepted hstart hr ht hplain path

/-- A tour of five conversions, twice to timed gates. -/
theorem tour_preserves_circuit_five :
    ((Document.canonical ⟨["X(1)", "CX(0, 1)", "H(2)"]⟩).tour
        [.timed, .register, .moment, .canonical, .timed]).2 = none ∧
      ∀ t', .timed t' ∈ ((Document.canonical ⟨["X(1)", "CX(0, 1)", "H(2)"]⟩).tour
          [.timed, .register, .moment, .canonical, .timed]).1 →
        t' = ⟨[⟨0, [1], .plain .x⟩, ⟨0, [2], .plain .h⟩, ⟨1, [0, 1], .plain .cx⟩]⟩ := by
  have hr : RegisterCircuit.ofCircuit ⟨["X(1)", "CX(0, 1)", "H(2)"]⟩ =
      .ok ⟨3, 0, [⟨.x, [1]⟩, ⟨.cx, [2, 1]⟩, ⟨.h, [0]⟩]⟩ := by decide +kernel
  have ht : TimedCircuit.ofCircuit ⟨["X(1)", "CX(0, 1)", "H(2)"]⟩ =
      .ok ⟨[⟨0, [1], .plain .x⟩, ⟨0, [2], .plain .h⟩, ⟨1, [0, 1], .plain .cx⟩]⟩ := by
    decide +kernel
  have hgates : Circuit.gates ⟨["X(1)", "CX(0, 1)", "H(2)"]⟩ =
      .ok [⟨.x, [], [1]⟩, ⟨.cx, [], [0, 1]⟩, ⟨.h, [], [2]⟩] := by decide +kernel
  obtain ⟨rs, hrs, -, -, hplain⟩ :=
    tour_preserves_circuit hr ht [.timed, .register, .moment, .canonical, .timed]
  obtain rfl := Except.ok.inj (hgates.symm.trans hrs)
  exact hplain (by decide)

end CircuitExchange
