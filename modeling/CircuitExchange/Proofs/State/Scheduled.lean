import Mathlib
import CircuitExchange.State.Simulation
import CircuitExchange.Proofs.Order.Acceptance
import CircuitExchange.Proofs.State.Run
import CircuitExchange.Proofs.State.Size

/-!
Scheduling preserves the state. Over exact numbers half-turns and half-angles are turned back into
the angles they were made of, so a scheduled circuit runs the operations of the canonical one in
another order, and exports the records it was made of.

* `Record.exists_statevector`: well formed records on a register of admissible size have a state.
* `MomentCircuit.program_eq`, `TimedCircuit.program_eq`: the programs of scheduled circuits.
* `scheduling_preserves_state`: the same state before, within and after scheduling.
-/

namespace CircuitExchange

/-! ### Programs of records -/

section Programs

variable {α : Type} [Scalar α]

/-- The step runs the operation of the record on its qubits. -/
structure Record.Runs (r : Record α) (step : Operation α × List Qubit) : Prop where
  operation : r.operation = .ok step.1
  qubits : step.2 = r.qubits

theorem Record.program_eq_ok_iff {rs : List (Record α)} {program : Program α} :
    Record.program rs = .ok program ↔ List.Forall₂ Record.Runs rs program := by
  rw [Record.program, mapM_eq_ok_iff]
  constructor
  · intro h
    refine h.imp fun r step hstep => ?_
    obtain ⟨op, hop, hstep⟩ := bind_eq_ok hstep
    obtain rfl := Except.ok.inj hstep
    exact ⟨hop, rfl⟩
  · intro h
    refine h.imp ?_
    rintro r ⟨op, qs⟩ ⟨hop, rfl⟩
    rw [hop]
    rfl

/-- A well formed record has an operation, for as many qubits as it has. -/
theorem Record.WellFormed.exists_operation {r : Record α} (h : r.WellFormed) :
    ∃ op, r.operation = .ok op ∧ op.arity = r.qubits.length := by
  rw [Record.operation, (r.checkArity_eq_ok_iff).2 h, h.qubitCount]
  obtain ⟨name, params, qubits⟩ := r
  cases name
  case rx | ry | rz =>
    obtain ⟨theta, rfl⟩ := h.exists_params_eq rfl
    exact ⟨_, rfl, rfl⟩
  all_goals exact ⟨_, rfl, rfl⟩

theorem Record.wellFormed_of_operation {r : Record α} {op : Operation α}
    (h : r.operation = .ok op) : r.WellFormed := by
  obtain ⟨_, harity, -⟩ := bind_eq_ok h
  exact r.checkArity_eq_ok_iff.1 harity

theorem Record.exists_program {rs : List (Record α)} (h : ∀ r ∈ rs, r.WellFormed) :
    ∃ program, Record.program rs = .ok program := by
  induction rs with
  | nil => exact ⟨[], rfl⟩
  | cons r rs ih =>
    obtain ⟨op, hop, -⟩ := (h r (List.mem_cons_self ..)).exists_operation
    obtain ⟨program, hprogram⟩ := ih fun r hr => h r (List.mem_cons_of_mem _ hr)
    exact ⟨(op, r.qubits) :: program,
      Record.program_eq_ok_iff.2 (.cons ⟨hop, rfl⟩ (Record.program_eq_ok_iff.1 hprogram))⟩

/-- The step of a record fits into a register that has its qubits. -/
theorem Record.Runs.fitsRegister {r : Record α} {step : Operation α × List Qubit} {n : Nat}
    (h : r.Runs step) (hlt : ∀ q ∈ r.qubits, q.toNat < n) : FitsRegister step n := by
  obtain ⟨op, qs⟩ := step
  obtain ⟨hop, rfl⟩ := h
  have hwellFormed := Record.wellFormed_of_operation hop
  obtain ⟨op', hop', harity⟩ := hwellFormed.exists_operation
  obtain rfl := Except.ok.inj (hop.symm.trans hop')
  exact ⟨harity.symm, hwellFormed.nodup, hlt⟩

theorem Record.fitsRegister {rs : List (Record α)} {program : Program α}
    (h : Record.program rs = .ok program) (hsize : (Circuit.sizeOf rs).toNat ≤ maxQubits) :
    ∀ step ∈ program, FitsRegister step (Circuit.sizeOf rs).toNat := by
  intro step hstep
  obtain ⟨r, hr, hruns⟩ := exists_mem_of_forall₂ (Record.program_eq_ok_iff.1 h) hstep
  exact hruns.fitsRegister fun q hq =>
    (toNat_next hsize (List.mem_flatMap.2 ⟨r, hr, hq⟩)).2

theorem Record.wellFormed_of_program {rs : List (Record α)} {program : Program α}
    (h : Record.program rs = .ok program) : ∀ r ∈ rs, r.WellFormed := by
  intro r hr
  obtain ⟨_, -, hruns⟩ := exists_mem_of_forall₂ (Record.program_eq_ok_iff.1 h).flip hr
  exact Record.wellFormed_of_operation hruns.operation

/-- The state of records is that of their program. -/
theorem Record.statevector_eq {rs : List (Record α)} {program : Program α}
    (h : Record.program rs = .ok program) :
    Record.statevector rs = (run (Circuit.sizeOf rs).toNat .bigEndian program).mapError .run := by
  rw [Record.statevector, h]
  rfl

/-- **Well formed records on a register of admissible size have a final state.** -/
theorem Record.exists_statevector {rs : List (Record α)} (h : ∀ r ∈ rs, r.WellFormed)
    (hsize : (Circuit.sizeOf rs).toNat ≤ maxQubits) :
    ∃ program v, Record.program rs = .ok program ∧
      run (Circuit.sizeOf rs).toNat .bigEndian program = .ok v ∧
      Record.statevector rs = .ok v := by
  obtain ⟨program, hprogram⟩ := Record.exists_program h
  have hrun := exists_run .bigEndian hsize (Record.fitsRegister hprogram hsize)
  refine ⟨program, _, hprogram, hrun, ?_⟩
  rw [Record.statevector_eq hprogram, hrun]
  rfl

/-- **Records with a program have a final state**, unless their register is too large. -/
theorem Record.exists_statevector_or_error {rs : List (Record α)} {program : Program α}
    (h : Record.program rs = .ok program) :
    (∃ v, Record.statevector rs = .ok v) ∨
      ∃ n, maxQubits < n ∧ Record.statevector rs = .error (.run (.tooManyQubits n)) := by
  by_cases hsize : (Circuit.sizeOf rs).toNat ≤ maxQubits
  · obtain ⟨_, v, _, _, hv⟩ :=
      Record.exists_statevector (Record.wellFormed_of_program h) hsize
    exact .inl ⟨v, hv⟩
  · have hlarge := Nat.lt_of_not_le hsize
    refine .inr ⟨_, hlarge, ?_⟩
    rw [Record.statevector_eq h, run_eq_error .bigEndian program hlarge]
    rfl

end Programs

theorem Circuit.statevector_eq {c : Circuit} {rs : List (Record Float)} (h : c.gates = .ok rs) :
    c.statevector = Record.statevector rs := by
  rw [Circuit.statevector, h]
  rfl

/-- The qubits of a program are those of its records. -/
theorem Record.flatMap_program {α : Type} [Scalar α] {rs : List (Record α)} {program : Program α}
    (h : Record.program rs = .ok program) :
    program.flatMap Prod.snd = rs.flatMap Record.qubits := by
  rw [List.flatMap_def, List.flatMap_def]
  refine congrArg List.flatten (map_eq_map_of_forall₂ ?_).symm
  exact (Record.program_eq_ok_iff.1 h).imp fun _ _ hruns => hruns.qubits.symm

/-- Reordered records have reordered programs, the same register and the same final state. -/
theorem Record.statevector_of_reordered {rs rs' : List (Record ℝ)}
    (h : Reordered (Apart Record.qubits) rs rs') {program : Program ℝ} {v : Statevector ℝ}
    (hprogram : Record.program rs = .ok program)
    (hrun : run (Circuit.sizeOf rs).toNat .bigEndian program = .ok v) :
    ∃ program', Record.program rs' = .ok program' ∧
      run (Circuit.sizeOf rs').toNat .bigEndian program' = .ok v ∧
      Record.statevector rs' = .ok v := by
  have hstored : List.Forall₂ (fun step r => Record.Runs r step) program rs :=
    (Record.program_eq_ok_iff.1 hprogram).flip
  have hapart : ∀ (step step' : Operation ℝ × List Qubit) (r r' : Record ℝ), r.Runs step →
      r'.Runs step' → Apart Record.qubits r r' → Apart Prod.snd step step' := by
    intro step step' r r' hr hr' hapart
    rwa [Apart, hr.qubits, hr'.qubits]
  obtain ⟨program', hreordered, hruns⟩ := h.exists_forall₂ hapart hstored
  have hprogram' := Record.program_eq_ok_iff.2 hruns.flip
  have hrun' := run_of_reordered hreordered hrun
  rw [Circuit.sizeOf_perm h.perm] at hrun'
  refine ⟨program', hprogram', hrun', ?_⟩
  rw [Record.statevector_eq hprogram', hrun']
  rfl

/-! ### Exact angles -/

section Angles

theorem halfTurns_mul_pi (theta : ℝ) : theta / Scalar.pi * Scalar.pi = theta := by
  rw [real_pi]
  exact div_mul_cancel₀ theta Real.pi_ne_zero

theorem two_mul_half (theta : ℝ) : Scalar.two * (theta / Scalar.two) = theta := by
  rw [real_two]
  exact mul_div_cancel₀ theta two_ne_zero

theorem half_mul_two (theta : ℝ) : theta / Scalar.two * Scalar.two = theta := by
  rw [real_two]
  exact div_mul_cancel₀ theta two_ne_zero

/-- The exported angle of a number of half-turns is the angle they were made of. -/
theorem eval_angle (theta : ℝ) : (MomentOperation.angle (theta / Scalar.pi)).eval = theta := by
  have hcancel := halfTurns_mul_pi theta
  unfold MomentOperation.angle
  split
  · rename_i hone
    rw [beq_iff_eq] at hone
    rw [hone] at hcancel
    exact (one_mul _).symm.trans hcancel
  · split
    · rename_i htwo
      rw [beq_iff_eq] at htwo
      rw [htwo] at hcancel
      exact hcancel
    · exact hcancel

end Angles

section Stored

variable {r : Record ℝ} {step : Operation ℝ × List Qubit}

/-- What is stored of a record in a circuit of moments runs the operation of the record. -/
theorem MomentOperation.Stores.runs {op : MomentOperation ℝ} (h : MomentOperation.Stores r op)
    (hruns : r.Runs step) : op.gate.operation?.map (·, op.qubits) = some step := by
  obtain ⟨name, params, qubits⟩ := r
  obtain ⟨gate, qubits'⟩ := op
  obtain ⟨operation, qubits''⟩ := step
  obtain ⟨hgate, rfl⟩ := h
  obtain ⟨hoperation, rfl⟩ := hruns
  have harity := (Record.checkArity_eq_ok_iff _).2 (Record.wellFormed_of_operation hoperation)
  rw [Record.operation, harity] at hoperation
  cases hgate
  case rx theta | ry theta | rz theta =>
    obtain rfl := Except.ok.inj hoperation
    simp only [MomentGate.operation?, halfTurns_mul_pi, Option.map_some]
  all_goals
    obtain rfl := Except.ok.inj hoperation
    rfl

/-- What is stored of a record in a circuit of timed gates runs the operation of the record. -/
theorem TimedEntry.Stores.runs {e : TimedEntry ℝ} (h : TimedEntry.Stores r e)
    (hruns : r.Runs step) : e.gate.operation = .ok step.1 ∧ e.qubits = step.2 := by
  obtain ⟨name, params, qubits⟩ := r
  obtain ⟨time, qubits', gate⟩ := e
  obtain ⟨operation, qubits''⟩ := step
  obtain ⟨hgate, rfl⟩ := h
  obtain ⟨hoperation, rfl⟩ := hruns
  have harity := (Record.checkArity_eq_ok_iff _).2 (Record.wellFormed_of_operation hoperation)
  rw [Record.operation, harity] at hoperation
  refine ⟨?_, rfl⟩
  cases hgate
  case rx theta | ry theta | rz theta =>
    obtain rfl := Except.ok.inj hoperation
    simp only [TimedGate.operation, TimedGate.operation.rotation, TimedGate.theta?,
      Parameters.lookup?_single, two_mul_half]
  all_goals
    obtain rfl := Except.ok.inj hoperation
    rfl

end Stored

/-- **A circuit of moments runs the program of the records it stores.** -/
theorem MomentCircuit.program_eq {rs : List (Record ℝ)} {m : MomentCircuit ℝ}
    (h : List.Forall₂ MomentOperation.Stores rs m.operations) {program : Program ℝ}
    (hprogram : Record.program rs = .ok program) : m.program = program := by
  refine filterMap_eq_of_forall₂ ?_
  refine (forall₂_of_common h (Record.program_eq_ok_iff.1 hprogram)).imp fun op step hop => ?_
  obtain ⟨r, hstores, hruns⟩ := hop
  exact hstores.runs hruns

/-- **A circuit of timed gates runs the program of the records it stores.** -/
theorem TimedCircuit.program_eq {rs : List (Record ℝ)} {t : TimedCircuit ℝ}
    (h : List.Forall₂ TimedEntry.Stores rs t.entries) {program : Program ℝ}
    (hprogram : Record.program rs = .ok program) : t.program = .ok program := by
  refine mapM_eq_ok_iff.2 ?_
  refine (forall₂_of_common h (Record.program_eq_ok_iff.1 hprogram)).imp fun e step he => ?_
  obtain ⟨r, hstores, hruns⟩ := he
  obtain ⟨hoperation, hqubits⟩ := hstores.runs hruns
  rw [hoperation, hqubits]
  rfl

/-- The exported call of a record stands for the record. -/
theorem Record.record_halfTurnCall (r : Record ℝ) : r.halfTurnCall.record = r := by
  have hangles : Angle.eval ∘ (fun theta : ℝ => MomentOperation.angle (theta / Scalar.pi)) = id :=
    funext eval_angle
  rw [GateCall.record, halfTurnCall, List.map_map, hangles, List.map_id]

theorem Record.redoubled_eq (r : Record ℝ) : r.redoubled = r := by
  have hid : (fun theta : ℝ => theta / Scalar.two * Scalar.two) = id := funext half_mul_two
  rw [Record.redoubled, hid, List.map_id]

/-! ### The state before, within and after scheduling -/

/-- The records are accepted as a circuit of moments, and they, the circuit and what it exports have
one final state. -/
def MomentAgrees (rs : List (Record ℝ)) : Prop :=
  ∃ m v calls, MomentCircuit.ofRecords rs = .ok m ∧ Record.statevector rs = .ok v ∧
    m.statevector = .ok v ∧ m.calls = .ok calls ∧
    Record.statevector (calls.map GateCall.record) = .ok v

/-- The records are accepted as a circuit of timed gates, and they, the circuit and what it exports
have one final state. -/
def TimedAgrees (rs : List (Record ℝ)) : Prop :=
  ∃ t v exported, TimedCircuit.ofRecords rs = .ok t ∧ Record.statevector rs = .ok v ∧
    t.statevector = .ok v ∧ t.records = .ok exported ∧ Record.statevector exported = .ok v

section Agree

variable {rs : List (Record ℝ)} (hsize : (Circuit.sizeOf rs).toNat ≤ maxQubits)
include hsize

theorem momentAgrees_of_ofRecords {m : MomentCircuit ℝ} (h : MomentCircuit.ofRecords rs = .ok m) :
    MomentAgrees rs := by
  obtain ⟨rs', hreordered, hstored⟩ := MomentCircuit.reordered_ofRecords h
  have hcalls := MomentCircuit.calls_eq hstored
  obtain ⟨hwellFormed', hstored⟩ := (List.forall₂_and_left ..).1 hstored
  have hwellFormed : ∀ r ∈ rs, r.WellFormed := fun r hr =>
    hwellFormed' r (hreordered.perm.mem_iff.1 hr)
  obtain ⟨program, v, hprogram, hrun, hv⟩ := Record.exists_statevector hwellFormed hsize
  obtain ⟨program', hprogram', hrun', hv'⟩ :=
    Record.statevector_of_reordered hreordered hprogram hrun
  have hm := MomentCircuit.program_eq (hstored.imp fun _ _ hop => hop.1) hprogram'
  rw [Circuit.sizeOf_perm hreordered.perm] at hsize
  refine ⟨m, v, _, h, hv, ?_, hcalls, ?_⟩
  · rw [MomentCircuit.statevector, hm, Record.flatMap_program hprogram', foldl_max_eq hsize]
    exact congrArg (Except.mapError SimulationError.run) hrun'
  · have hrecord : GateCall.record ∘ Record.halfTurnCall = (id : Record ℝ → Record ℝ) :=
      funext Record.record_halfTurnCall
    rw [List.map_map, hrecord, List.map_id]
    exact hv'

theorem timedAgrees_of_ofRecords {t : TimedCircuit ℝ} (h : TimedCircuit.ofRecords rs = .ok t) :
    TimedAgrees rs := by
  obtain ⟨-, rs', hreordered, hstored⟩ := TimedCircuit.reordered_ofRecords h
  have hrecords := TimedCircuit.records_eq hstored
  obtain ⟨hwellFormed', hstored⟩ := (List.forall₂_and_left ..).1 hstored
  have hwellFormed : ∀ r ∈ rs, r.WellFormed := fun r hr =>
    hwellFormed' r (hreordered.perm.mem_iff.1 hr)
  obtain ⟨program, v, hprogram, hrun, hv⟩ := Record.exists_statevector hwellFormed hsize
  obtain ⟨program', hprogram', hrun', hv'⟩ :=
    Record.statevector_of_reordered hreordered hprogram hrun
  have ht := TimedCircuit.program_eq hstored hprogram'
  have hcount : t.qubitCount = Circuit.sizeOf rs' := by
    rw [TimedCircuit.qubitCount, Circuit.sizeOf, List.flatMap_def, List.flatMap_def]
    refine congrArg (impliedQubitCount ·.flatten) (map_eq_map_of_forall₂ ?_).symm
    exact hstored.imp fun _ _ he => he.qubits.symm
  refine ⟨t, v, _, h, hv, ?_, hrecords, ?_⟩
  · rw [TimedCircuit.statevector, ht, hcount]
    exact congrArg (Except.mapError SimulationError.run) hrun'
  · have hid : (Record.redoubled : Record ℝ → Record ℝ) = id := funext Record.redoubled_eq
    rw [hid, List.map_id]
    exact hv'

end Agree

/-- **Scheduling preserves the state.** Operations on disjoint bits commute on every state. So exact
records that a scheduled circuit is made of, the circuit itself and the records it exports have one
final state; and records of a circuit whose angles are read as exact numbers are accepted like the
circuit. -/
theorem scheduling_preserves_state :
    (∀ (op op' : Operation ℝ) (bits bits' : List Nat), bits.Disjoint bits' →
      ∀ s : Statevector ℝ, (s.apply op bits >>= (·.apply op' bits')).toOption =
        (s.apply op' bits' >>= (·.apply op bits)).toOption) ∧
    (∀ rs : List (Record ℝ), (Circuit.sizeOf rs).toNat ≤ maxQubits →
      (∀ m, MomentCircuit.ofRecords rs = .ok m → MomentAgrees rs) ∧
        ∀ t, TimedCircuit.ofRecords rs = .ok t → TimedAgrees rs) ∧
    ∀ (c : Circuit) (rs : List (Record Float)) (reading : Float → ℝ), c.gates = .ok rs →
      (Circuit.sizeOf rs).toNat ≤ maxQubits →
      (∀ m, MomentCircuit.ofCircuit c = .ok m →
        MomentAgrees (rs.map (Record.mapAngles reading))) ∧
      ∀ t, TimedCircuit.ofCircuit c = .ok t →
        TimedAgrees (rs.map (Record.mapAngles reading)) := by
  refine ⟨?_, ?_, ?_⟩
  · intro op op' bits bits' h s
    exact apply_comm h s
  · intro rs hsize
    constructor
    · intro m h
      exact momentAgrees_of_ofRecords hsize h
    · intro t h
      exact timedAgrees_of_ofRecords hsize h
  · intro c rs reading hrs hsize
    rw [← Circuit.sizeOf_mapAngles reading] at hsize
    constructor
    · intro m h
      rw [MomentCircuit.ofCircuit, hrs] at h
      obtain ⟨rs', hreordered, hstored⟩ := MomentCircuit.reordered_ofRecords h
      have hwellFormed := ((List.forall₂_and_left ..).1 hstored).1
      have hread : ∀ r ∈ rs.map (Record.mapAngles reading), r.WellFormed := by
        intro _ hmem
        obtain ⟨r, hr, rfl⟩ := List.mem_map.1 hmem
        exact (hwellFormed r (hreordered.perm.mem_iff.1 hr)).mapAngles reading
      obtain ⟨m', hm'⟩ := MomentCircuit.exists_ofRecords hread
      exact momentAgrees_of_ofRecords hsize hm'
    · intro t h
      rw [TimedCircuit.ofCircuit, hrs] at h
      obtain ⟨t', ht', -⟩ := TimedCircuit.exists_ofRecords_mapAngles h reading
      exact timedAgrees_of_ofRecords hsize ht'

/-- Three gates, two of which may be exchanged. -/
theorem scheduling_preserves_state_three :
    MomentAgrees [⟨.x, [], [1]⟩, ⟨.cx, [], [0, 1]⟩, ⟨.h, [], [2]⟩] ∧
      TimedAgrees [⟨.x, [], [1]⟩, ⟨.cx, [], [0, 1]⟩, ⟨.h, [], [2]⟩] := by
  have h := scheduling_preserves_state.2.2 ⟨["X(1)", "CX(0, 1)", "H(2)"]⟩
    [⟨.x, [], [1]⟩, ⟨.cx, [], [0, 1]⟩, ⟨.h, [], [2]⟩] (fun _ => 0) (by decide +kernel)
    (by decide +kernel)
  exact ⟨h.1 ⟨[[⟨.x, [1]⟩, ⟨.h, [2]⟩], [⟨.cnot, [0, 1]⟩]]⟩ (by decide +kernel),
    h.2 ⟨[⟨0, [1], .plain .x⟩, ⟨0, [2], .plain .h⟩, ⟨1, [0, 1], .plain .cx⟩]⟩ (by decide +kernel)⟩

end CircuitExchange
