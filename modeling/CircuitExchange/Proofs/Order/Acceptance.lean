import Mathlib
import CircuitExchange.Proofs.Order.Conversion

/-!
Which records the scheduled circuits accept. Angles play no part in it, so records that are accepted
are accepted with any other angles as well, over whatever numbers.

* `Record.mapAngles`: a record with its angles read as other numbers.
* `MomentCircuit.exists_ofRecords`: circuits of moments accept all well formed records.
* `TimedCircuit.exists_ofRecords_mapAngles`: circuits of timed gates place gates by their qubits
  alone.
-/

namespace CircuitExchange

/-- The record with its angles read as other numbers. -/
def Record.mapAngles {α β : Type} (f : α → β) (r : Record α) : Record β :=
  ⟨r.name, r.params.map f, r.qubits⟩

theorem Record.WellFormed.mapAngles {α β : Type} {r : Record α} (h : r.WellFormed) (f : α → β) :
    (r.mapAngles f).WellFormed :=
  ⟨h.qubitCount, (List.length_map f).trans h.paramCount, h.nodup⟩

/-! ### Circuits of moments -/

section Moments

variable {α : Type} [Scalar α]

omit [Scalar α] in
theorem Record.WellFormed.exists_angle {r : Record α} (h : r.WellFormed)
    (hrotation : r.name.isRotation = true) : ∃ theta, r.angle = .ok theta := by
  obtain ⟨theta, htheta⟩ := h.exists_params_eq hrotation
  exact ⟨theta, by rw [Record.angle, htheta]⟩

theorem MomentGate.exists_ofRecord {r : Record α} (h : r.WellFormed) :
    ∃ g, MomentGate.ofRecord r = .ok g := by
  obtain ⟨name, params, qubits⟩ := r
  cases name
  case rx | ry | rz =>
    obtain ⟨theta, htheta⟩ := h.exists_angle rfl
    rw [MomentGate.ofRecord, htheta]
    exact ⟨_, rfl⟩
  all_goals exact ⟨_, rfl⟩

omit [Scalar α] in
/-- A valid operation has the number of qubits its gate needs, if it needs one, and none twice. -/
theorem MomentOperation.validate_eq_ok_iff {op : MomentOperation α} :
    op.validate = .ok () ↔
      (∀ n, op.gate.qubitCount? = some n → op.qubits.length = n) ∧ op.qubits.Nodup := by
  have hdistinct : validate.distinct op = .ok () ↔ op.qubits.Nodup := by
    have hrepeated := firstRepeated?_eq_none_iff [] op.qubits
    rw [validate.distinct]
    cases h : firstRepeated? [] op.qubits with
    | none => exact ⟨fun _ => (hrepeated.1 h).1, fun _ => rfl⟩
    | some q =>
      refine ⟨nofun, fun hnodup => ?_⟩
      rw [hrepeated.2 ⟨hnodup, by simp⟩] at h
      cases h
  rw [validate]
  cases op.gate.qubitCount? with
  | none =>
    rw [hdistinct]
    exact ⟨fun h => ⟨nofun, h⟩, fun h => h.2⟩
  | some n =>
    dsimp only
    by_cases hlength : n = op.qubits.length
    · rw [if_neg (not_not_intro hlength), hdistinct, hlength]
      exact ⟨fun h => ⟨fun _ hn => Option.some.inj hn, h⟩, fun h => h.2⟩
    · rw [if_pos hlength]
      exact ⟨nofun, fun h => absurd (h.1 n rfl).symm hlength⟩

theorem MomentOperation.validate_of_stores {r : Record α} {op : MomentOperation α}
    (hr : r.WellFormed) (h : MomentOperation.Stores r op) : op.validate = .ok () := by
  obtain ⟨name, params, qubits⟩ := r
  obtain ⟨gate, qubits'⟩ := op
  obtain ⟨hgate, rfl⟩ := h
  refine validate_eq_ok_iff.2 ⟨fun n hn => ?_, hr.nodup⟩
  rw [hr.qubitCount]
  cases hgate <;> exact Option.some.inj hn

namespace MomentCircuit

/-- A well formed record is appended as what it is stored as. -/
theorem appendRecord_of_stores {r : Record α} {op : MomentOperation α} (hr : r.WellFormed)
    (hstores : MomentOperation.Stores r op) (m : MomentCircuit α) :
    m.appendRecord r = .ok ⟨addAt op (place op.qubits m.moments) m.moments⟩ := by
  have hop : (⟨op.gate, r.qubits⟩ : MomentOperation α) = op := by rw [← hstores.qubits]
  rw [appendRecord, r.checkArity_eq_ok_iff.2 hr, MomentGate.ofRecord_of_stores hstores.gate]
  change Except.mapError _ (m.append ⟨op.gate, r.qubits⟩) = _
  rw [hop, append, MomentOperation.validate_of_stores hr hstores]
  rfl

/-- **Circuits of moments accept all well formed records.** -/
theorem exists_ofRecords {rs : List (Record α)} (h : ∀ r ∈ rs, r.WellFormed) :
    ∃ m, ofRecords rs = .ok m := by
  refine exists_foldlM_ok (fun r hr m => ?_) empty
  obtain ⟨g, hg⟩ := MomentGate.exists_ofRecord (h r hr)
  have hstores : MomentOperation.Stores r ⟨g, r.qubits⟩ :=
    ⟨MomentGate.stores_of_ofRecord (h r hr) hg, rfl⟩
  exact ⟨_, appendRecord_of_stores (h r hr) hstores m⟩

end MomentCircuit

end Moments

/-! ### Circuits of timed gates -/

/-- What an entry is kept under. -/
def TimedEntry.key {α : Type} (e : TimedEntry α) : UInt64 × List Qubit := (e.time, e.qubits)

namespace TimedCircuit

variable {α β : Type}

/-- The keys of all entries, in their order. -/
def keys (c : TimedCircuit α) : List (UInt64 × List Qubit) := c.entries.map TimedEntry.key

theorem before_congr {e a : TimedEntry α} {e' a' : TimedEntry β} (he : e.key = e'.key)
    (ha : a.key = a'.key) : e.before a = e'.before a' := by
  obtain ⟨htime, hqubits⟩ := Prod.mk.inj he
  obtain ⟨htime', hqubits'⟩ := Prod.mk.inj ha
  rw [TimedEntry.before, TimedEntry.before, htime, hqubits, htime', hqubits']

theorem map_key_insert {e : TimedEntry α} {e' : TimedEntry β} (he : e.key = e'.key)
    {entries : List (TimedEntry α)} {entries' : List (TimedEntry β)}
    (h : entries.map TimedEntry.key = entries'.map TimedEntry.key) :
    (insert e entries).map TimedEntry.key = (insert e' entries').map TimedEntry.key := by
  induction entries generalizing entries' with
  | nil =>
    obtain rfl := List.map_eq_nil_iff.1 h.symm
    rw [insert, insert, List.map_singleton, List.map_singleton, he]
  | cons a rest ih =>
    obtain ⟨a', rest', rfl, ha, hrest⟩ := List.map_eq_cons_iff.1 h.symm
    rw [insert, insert, before_congr he ha.symm]
    split
    · rw [List.map_cons, h, he]
      rfl
    · rw [List.map_cons, List.map_cons, ha, ih hrest.symm]

theorem freeTime_eq_keys (c : TimedCircuit α) (qs : List Qubit) :
    c.freeTime qs = (c.keys.filter fun key => key.2.any qs.contains).foldl
      (fun time key => max time (nextTime key.1)) 0 := by
  rw [keys, List.filter_map, List.foldl_map]
  rfl

theorem occupied_eq_keys (c : TimedCircuit α) (qs : List Qubit) (time : UInt64) :
    c.occupied qs time = c.keys.any fun key => key.1 == time && key.2.any qs.contains := by
  rw [keys, List.any_map]
  rfl

/-- Gates are added at the same times to circuits with the same keys. -/
theorem exists_add {c c₁ : TimedCircuit α} {c' : TimedCircuit β} (hkeys : c.keys = c'.keys)
    {gate : TimedGate α} {gate' : TimedGate β} (hname : gate.name = gate'.name) {qs : List Qubit}
    {time : UInt64} (h : c.add gate qs = .ok (time, c₁)) :
    ∃ c₁', c'.add gate' qs = .ok (time, c₁') ∧ c₁.keys = c₁'.keys := by
  obtain ⟨htime, hadd⟩ := add_eq_ok_iff.1 h
  obtain ⟨hcheck, hfree, rfl⟩ := addEntry_eq_ok_iff.1 hadd
  rw [freeTime_eq_keys, hkeys, ← freeTime_eq_keys] at htime
  rw [occupied_eq_keys, hkeys, ← occupied_eq_keys] at hfree
  rw [checkEntry_eq_ok_iff] at hcheck
  have hkey : (⟨time, qs, gate⟩ : TimedEntry α).key = (⟨time, qs, gate'⟩ : TimedEntry β).key := rfl
  refine ⟨⟨insert ⟨time, qs, gate'⟩ c'.entries⟩, ?_, map_key_insert hkey hkeys⟩
  refine add_eq_ok_iff.2 ⟨htime, addEntry_eq_ok_iff.2 ⟨?_, hfree, rfl⟩⟩
  exact checkEntry_eq_ok_iff.2 ⟨hcheck.1, hname ▸ hcheck.2.1, hcheck.2.2⟩

variable [Scalar α] [Scalar β]

/-- The kind of timed gate depends on the name of a record alone. -/
theorem exists_ofRecord_mapAngles {r : Record α} (hr : r.WellFormed) {g : TimedGate α}
    (h : TimedGate.ofRecord r = .ok g) (f : α → β) :
    ∃ g', TimedGate.ofRecord (r.mapAngles f) = .ok g' ∧ g.name = g'.name := by
  have hmapped := hr.mapAngles f
  obtain ⟨name, params, qubits⟩ := r
  cases name
  case rx | ry | rz =>
    obtain ⟨theta, -, rfl⟩ := map_eq_ok h
    obtain ⟨theta', htheta'⟩ := hmapped.exists_angle rfl
    refine ⟨_, congrArg (Except.map _) htheta', rfl⟩
  all_goals
    obtain rfl := Except.ok.inj h
    exact ⟨_, rfl, rfl⟩

/-- **Circuits of timed gates accept records with any other angles**, at the same times. -/
theorem exists_ofRecords_mapAngles {rs : List (Record α)} {t : TimedCircuit α}
    (h : ofRecords rs = .ok t) (f : α → β) :
    ∃ t', ofRecords (rs.map (Record.mapAngles f)) = .ok t' ∧ t.keys = t'.keys := by
  have hstep : ∀ {t t₁ : TimedCircuit α} {t' : TimedCircuit β} {r : Record α}, t.keys = t'.keys →
      t.addRecord r = .ok t₁ →
      ∃ t₁', t'.addRecord (r.mapAngles f) = .ok t₁' ∧ t₁.keys = t₁'.keys := by
    intro t t₁ t' r hkeys h
    obtain ⟨_, harity, h⟩ := bind_eq_ok h
    obtain ⟨gate, hgate, h⟩ := bind_eq_ok h
    obtain ⟨⟨time, t₂⟩, hadd, h⟩ := bind_eq_ok h
    obtain rfl := Except.ok.inj h
    have hr := r.checkArity_eq_ok_iff.1 (mapError_eq_ok harity)
    obtain ⟨gate', hgate', hname⟩ := exists_ofRecord_mapAngles hr (mapError_eq_ok hgate) f
    obtain ⟨t₁', hadd', hkeys'⟩ := exists_add hkeys hname (mapError_eq_ok hadd)
    refine ⟨t₁', ?_, hkeys'⟩
    rw [addRecord, (Record.checkArity_eq_ok_iff _).2 (hr.mapAngles f), hgate']
    exact congrArg (fun result => Except.mapError _ result >>= fun result => .ok result.2) hadd'
  have hfold : ∀ {t₀ : TimedCircuit α} {t₀' : TimedCircuit β}, t₀.keys = t₀'.keys →
      rs.foldlM addRecord t₀ = .ok t →
      ∃ t', (rs.map (Record.mapAngles f)).foldlM addRecord t₀' = .ok t' ∧ t.keys = t'.keys := by
    clear h
    induction rs with
    | nil =>
      intro t₀ t₀' hkeys h
      obtain rfl := Except.ok.inj h
      exact ⟨t₀', rfl, hkeys⟩
    | cons r rs ih =>
      intro t₀ t₀' hkeys h
      rw [List.foldlM_cons] at h
      obtain ⟨t₁, ht₁, h⟩ := bind_eq_ok h
      obtain ⟨t₁', ht₁', hkeys₁⟩ := hstep hkeys ht₁
      obtain ⟨t', ht', hkeys'⟩ := ih hkeys₁ h
      refine ⟨t', ?_, hkeys'⟩
      rw [List.map_cons, List.foldlM_cons, ht₁']
      exact ht'
  exact hfold rfl h

end TimedCircuit

end CircuitExchange
