import Mathlib
import CircuitExchange.Proofs.Decimal.Product
import CircuitExchange.Proofs.State.Scheduled

/-!
Export of moments and timed gates is exact. What a circuit of moments or of timed gates runs is read
off its own gates; what it exports goes through tokens that are parsed again. Whenever it is
exported and the tokens parse, both are one program over double precision numbers.

* `MomentOperation.rel_call?`, `TimedEntry.Exports.exists_runs`: one gate runs what its export runs.
* `MomentCircuit.program_calls`, `TimedCircuit.program_records`: so does the whole circuit.
* `native_export_is_exact`: the same program, and the same outcome.
-/

namespace CircuitExchange

/-- A checked record runs the operation of its gate. -/
theorem Record.WellFormed.runs {α : Type} [Scalar α] {r : Record α} (h : r.WellFormed)
    {op : Operation α} (hop : r.checkArity = .ok () → r.operation = .ok op) :
    r.Runs (op, r.qubits) :=
  ⟨hop (r.checkArity_eq_ok_iff.2 h), rfl⟩

/-! ### Circuits of moments -/

section Moments

/-- **An operation runs what its call stands for**, and a measurement has neither. -/
theorem MomentOperation.rel_call? {op : MomentOperation Float} {call? : Option (GateCall Float)}
    (h : op.call? = .ok call?) :
    Option.Rel (fun call step => call.record.Runs step) call?
      (op.gate.operation?.map (·, op.qubits)) := by
  obtain ⟨_, hvalid, h⟩ := bind_eq_ok h
  obtain ⟨gate?, hgate, h⟩ := bind_eq_ok h
  obtain rfl := Except.ok.inj h
  obtain ⟨hcount, hnodup⟩ := validate_eq_ok_iff.1 hvalid
  obtain ⟨gate, qubits⟩ := op
  cases gate
  case measure =>
    obtain rfl := Except.ok.inj hgate
    exact .none
  case iswap => cases hgate
  case rx exponent | ry exponent | rz exponent =>
    obtain rfl := Except.ok.inj hgate
    refine .some (Record.WellFormed.runs ⟨hcount _ rfl, rfl, hnodup⟩ fun harity => ?_)
    rw [Record.operation, harity, ← Decimal.eval_angle_eq_product]
    rfl
  all_goals
    obtain rfl := Except.ok.inj hgate
    refine .some (Record.WellFormed.runs ⟨hcount _ rfl, rfl, hnodup⟩ fun harity => ?_)
    rw [Record.operation, harity]
    rfl

namespace MomentCircuit

/-- **A circuit of moments runs what its calls stand for.** -/
theorem program_calls {m : MomentCircuit Float} {calls : List (GateCall Float)}
    (h : m.calls = .ok calls) : Record.program (calls.map GateCall.record) = .ok m.program := by
  obtain ⟨results, hresults, h⟩ := bind_eq_ok h
  obtain rfl := Except.ok.inj h
  rw [Record.program_eq_ok_iff, List.forall₂_map_left_iff]
  have hrel : List.Forall₂ (fun call? op => MomentOperation.call? op = .ok call?) results
      m.operations := (mapM_eq_ok_iff.1 hresults).flip
  exact List.rel_filterMap (fun _ _ hcall => MomentOperation.rel_call? hcall) hrel

theorem program_of_toCircuit {m : MomentCircuit Float} {c : Circuit} {rs : List (Record Float)}
    (h : m.toCircuit = .ok c) (hrs : c.gates = .ok rs) : Record.program rs = .ok m.program := by
  obtain ⟨calls, hcalls, h⟩ := bind_eq_ok h
  obtain rfl := Except.ok.inj h
  have hprogram := program_calls (mapError_eq_ok hcalls)
  have hwellFormed : ∀ call ∈ calls, call.record.WellFormed := fun call hcall =>
    Record.wellFormed_of_program hprogram _ (List.mem_map_of_mem hcall)
  rwa [Circuit.gates_of_calls hwellFormed hrs] at hprogram

/-- A circuit of moments has the outcome of records with the same program, up to the number that the
error gives. -/
theorem statevector_of_program {m : MomentCircuit Float} {rs : List (Record Float)}
    (h : Record.program rs = .ok m.program) :
    (∃ v, m.statevector = .ok v ∧ Record.statevector rs = .ok v) ∨
      ∃ n, maxQubits < n ∧ m.statevector = .error (.run (.tooManyQubits n)) ∧
        Record.statevector rs = .error (.run (.tooManyQubits (min n (2 ^ 32 - 1)))) := by
  have hsize : (Circuit.sizeOf rs).toNat =
      min ((m.program.flatMap (·.2)).foldl (fun n q => max n (q.toNat + 1)) 0) (2 ^ 32 - 1) := by
    rw [Record.flatMap_program h]
    exact toNat_impliedQubitCount _
  rw [Record.statevector_eq h, statevector, hsize]
  generalize (m.program.flatMap (·.2)).foldl (fun n q => max n (q.toNat + 1)) 0 = n at *
  have hbound : maxQubits < 2 ^ 32 - 1 := by decide
  by_cases hle : n ≤ maxQubits
  · have hmin : min n (2 ^ 32 - 1) = n := by omega
    rw [hmin] at hsize ⊢
    obtain ⟨_, v, hprogram, hrun, -⟩ :=
      Record.exists_statevector (Record.wellFormed_of_program h) (hsize ▸ hle)
    obtain rfl := Except.ok.inj (h.symm.trans hprogram)
    rw [hsize] at hrun
    rw [hrun]
    exact .inl ⟨v, rfl, rfl⟩
  · refine .inr ⟨n, Nat.lt_of_not_le hle, ?_, ?_⟩
    · rw [run_eq_error .bigEndian m.program (by omega)]
      rfl
    · rw [run_eq_error .bigEndian m.program (by omega)]
      rfl

end MomentCircuit

end Moments

/-! ### Circuits of timed gates -/

section Timed

/-- An exported record has the canonical gate of its entry, with its angles and on its qubits. -/
structure TimedEntry.Exports (e : TimedEntry Float) (r : Record Float) : Prop where
  name : e.gate.name.canonical? = some r.name
  params : e.gate.angles = .ok r.params
  qubits : r.qubits = e.qubits
  wellFormed : r.WellFormed

theorem TimedEntry.exports_of_record {e : TimedEntry Float} {r : Record Float}
    (h : e.record = .ok r) : e.Exports r := by
  rw [TimedEntry.record] at h
  split at h
  · cases h
  · rename_i name hname
    split at h
    · cases h
    · obtain ⟨params, hparams, h⟩ := bind_eq_ok h
      obtain ⟨_, harity, h⟩ := bind_eq_ok h
      obtain rfl := Except.ok.inj h
      exact ⟨hname, mapError_eq_ok hparams, rfl,
        (Record.checkArity_eq_ok_iff _).1 (mapError_eq_ok harity)⟩

/-- A rotation that has angles has twice its `theta`. -/
theorem TimedGate.exists_theta {g : TimedGate Float} {params : List Float}
    (h : g.angles = .ok params) (hrotation : g.name.isRotation = true) :
    ∃ theta, g.theta? = some theta ∧ params = [theta * Scalar.two] := by
  rw [TimedGate.angles, if_pos hrotation] at h
  split at h
  · exact ⟨_, ‹_›, (Except.ok.inj h).symm⟩
  · cases h

theorem TimedGate.rotation_eq {g : TimedGate Float} {theta : Float} (h : g.theta? = some theta)
    (make : Float → Operation Float) :
    TimedGate.operation.rotation g make = .ok (make (theta * Scalar.two)) := by
  rw [TimedGate.operation.rotation, h, Decimal.product_comm]

/-- **An entry runs what its record stands for.** -/
theorem TimedEntry.Exports.exists_runs {e : TimedEntry Float} {r : Record Float}
    (h : e.Exports r) : ∃ op, e.gate.operation = .ok op ∧ r.Runs (op, e.qubits) := by
  have hname := h.name
  have hparams := h.params
  have hwellFormed := h.wellFormed
  obtain ⟨time, qubits, gate, parameters⟩ := e
  obtain ⟨name, params, qubits'⟩ := r
  obtain rfl : qubits' = qubits := h.qubits
  cases gate
  case st => cases hname
  case rx | ry | rz =>
    obtain rfl := Option.some.inj hname
    obtain ⟨theta, htheta, rfl⟩ := TimedGate.exists_theta hparams rfl
    have hoperation := TimedGate.rotation_eq htheta
    exact ⟨_, hoperation _, hwellFormed.runs fun harity => by rw [Record.operation, harity]; rfl⟩
  all_goals
    obtain rfl := Option.some.inj hname
    exact ⟨_, rfl, hwellFormed.runs fun harity => by rw [Record.operation, harity]; rfl⟩

namespace TimedCircuit

/-- **A circuit of timed gates runs what its records stand for.** -/
theorem program_records {t : TimedCircuit Float} {rs : List (Record Float)}
    (h : t.records = .ok rs) :
    ∃ program, t.program = .ok program ∧ Record.program rs = .ok program := by
  have hexports := (mapM_eq_ok_iff.1 h).imp fun _ _ he => TimedEntry.exports_of_record he
  obtain ⟨program, hprogram⟩ := Record.exists_program fun r hr => by
    obtain ⟨e, -, he⟩ := exists_mem_of_forall₂ hexports hr
    exact he.wellFormed
  refine ⟨program, mapM_eq_ok_iff.2 ?_, hprogram⟩
  refine (forall₂_of_common hexports.flip (Record.program_eq_ok_iff.1 hprogram)).imp ?_
  rintro e step ⟨r, he, hruns⟩
  obtain ⟨op, hop, hruns'⟩ := he.exists_runs
  have hoperation : op = step.1 := Except.ok.inj (hruns'.operation.symm.trans hruns.operation)
  rw [hop, hoperation, ← he.qubits, ← hruns.qubits]
  rfl

theorem qubitCount_of_records {t : TimedCircuit Float} {rs : List (Record Float)}
    (h : t.records = .ok rs) : t.qubitCount = Circuit.sizeOf rs := by
  have hexports := (mapM_eq_ok_iff.1 h).imp fun _ _ he => TimedEntry.exports_of_record he
  rw [qubitCount, Circuit.sizeOf, List.flatMap_def, List.flatMap_def]
  refine congrArg (impliedQubitCount ·.flatten) (map_eq_map_of_forall₂ ?_)
  exact hexports.imp fun _ _ he => he.qubits.symm

/-- The records are read back from the tokens they are exported as. -/
theorem records_of_toCircuit {t : TimedCircuit Float} {c : Circuit} {rs : List (Record Float)}
    (h : t.toCircuit = .ok c) (hrs : c.gates = .ok rs) : t.records = .ok rs := by
  obtain ⟨records, hrecords, h⟩ := bind_eq_ok h
  obtain rfl := Except.ok.inj h
  have hcalls : (records.map Record.call).map GateCall.record = records := by
    rw [List.map_map]
    exact (List.map_congr_left fun r _ => r.record_call).trans (List.map_id _)
  have hwellFormed : ∀ call ∈ records.map Record.call, call.record.WellFormed := by
    intro call hcall
    obtain ⟨r, hr, rfl⟩ := List.mem_map.1 hcall
    obtain ⟨e, -, he⟩ := exists_mem_of_forall₂ (mapM_eq_ok_iff.1 hrecords) hr
    rw [r.record_call]
    exact (TimedEntry.exports_of_record he).wellFormed
  rw [Circuit.ofRecords_eq] at hrs
  rw [hrecords, ← Circuit.gates_of_calls hwellFormed hrs, hcalls]

end TimedCircuit

end Timed

/-- **Export of moments and timed gates is exact.** Whenever a circuit is exported and the tokens
parse, the exported records are the program that the circuit runs, so that both have the same
outcome: one final state, or an error that the register is too large. The error of a circuit of
moments gives the exact number of qubits, which the canonical size cuts off. -/
theorem native_export_is_exact :
    (∀ (m : MomentCircuit Float) (c : Circuit) (rs : List (Record Float)),
      m.toCircuit = .ok c → c.gates = .ok rs →
      Record.program rs = .ok m.program ∧
      ((∃ v, m.statevector = .ok v ∧ c.statevector = .ok v) ∨
        ∃ n, maxQubits < n ∧ m.statevector = .error (.run (.tooManyQubits n)) ∧
          c.statevector = .error (.run (.tooManyQubits (min n (2 ^ 32 - 1)))))) ∧
    ∀ (t : TimedCircuit Float) (c : Circuit) (rs : List (Record Float)),
      t.toCircuit = .ok c → c.gates = .ok rs →
      (∃ program, t.program = .ok program ∧ Record.program rs = .ok program) ∧
      t.statevector = c.statevector ∧
      ((∃ v, c.statevector = .ok v) ∨
        ∃ n, maxQubits < n ∧ c.statevector = .error (.run (.tooManyQubits n))) := by
  constructor
  · intro m c rs h hrs
    have hprogram := MomentCircuit.program_of_toCircuit h hrs
    rw [Circuit.statevector_eq hrs]
    exact ⟨hprogram, MomentCircuit.statevector_of_program hprogram⟩
  · intro t c rs h hrs
    have hrecords := TimedCircuit.records_of_toCircuit h hrs
    obtain ⟨program, ht, hprogram⟩ := TimedCircuit.program_records hrecords
    rw [Circuit.statevector_eq hrs]
    refine ⟨⟨program, ht, hprogram⟩, ?_, Record.exists_statevector_or_error hprogram⟩
    rw [Record.statevector_eq hprogram, ← TimedCircuit.qubitCount_of_records hrecords,
      TimedCircuit.statevector, ht]
    rfl

/-- A moment whose operations overlap and one of which is a measurement. -/
def overlapping : MomentCircuit Float :=
  ⟨[[⟨.rx 1, [0]⟩, ⟨.measure "m", [0, 5]⟩, ⟨.cnot, [0, 2]⟩]]⟩

/-- Two gates, the first of which stands for a half-turn. -/
def halfTurn : TimedCircuit Float :=
  ⟨[⟨0, [1], .rotation .rz (Scalar.pi / Scalar.two)⟩, ⟨4, [0, 1], .plain .cx⟩]⟩

theorem native_export_is_exact_two :
    Record.program [⟨.rx, [Scalar.pi], [0]⟩, ⟨.cx, [], [0, 2]⟩] = .ok overlapping.program ∧
      halfTurn.statevector = Circuit.statevector ⟨["RZ(3.141592653589793)(1)", "CX(0, 1)"]⟩ := by
  constructor
  · exact (native_export_is_exact.1 overlapping ⟨["RX(PI)(0)", "CX(0, 2)"]⟩ _ (by decide +kernel)
      (by decide +kernel)).1
  · exact (native_export_is_exact.2 halfTurn ⟨["RZ(3.141592653589793)(1)", "CX(0, 1)"]⟩
      [⟨.rz, [Scalar.pi], [1]⟩, ⟨.cx, [], [0, 1]⟩] (by decide +kernel) (by decide +kernel)).2.1

end CircuitExchange
