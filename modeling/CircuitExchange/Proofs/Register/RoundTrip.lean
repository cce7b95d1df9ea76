import Mathlib
import CircuitExchange.Proofs.Register.Import
import CircuitExchange.Proofs.Register.Meaning

/-!
Register circuits there and back. A record that became an instruction is exported as the same token.
The other way round the two directions count qubits against different sizes, the declared one on the
way out and the implied one on the way in, so that all qubits move down by as many as are idle below
the least one that is acted on.

* `RegisterGate.isDirect`: the gates that stand for one record, and measurements.
* `RegisterCircuit.shrunk`: a register circuit without its idle low qubits.
* `forall₂_stores_lowered`: the records of instructions are stored as the lowered instructions.
* `register_round_trip`: both round trips.
-/

namespace CircuitExchange

/-! ### Gates -/

namespace RegisterGate

variable {α : Type} {gate : RegisterGate α}

/-- The gate is a measurement, or one that has a canonical gate of its own. -/
def isDirect : RegisterGate α → Bool
  | sdg | tdg | u1 _ | u2 .. | u3 .. => false
  | _ => true

theorem exportable_of_isDirect (h : gate.isDirect) : gate.Exportable := by
  cases gate
  case sdg | tdg => cases h
  all_goals exact ⟨nofun, nofun⟩

/-- A gate with a canonical gate of its own stands for one record, and that record for the gate. -/
theorem exists_record [Scalar α] (h : gate.isDirect) (hmeasure : ¬ gate.isMeasurement)
    (qubits : List Qubit) :
    ∃ r, gate.records qubits = [r] ∧ r.qubits = qubits ∧ ofRecord r = .ok gate := by
  cases gate
  case sdg | tdg | u1 | u2 | u3 => cases h
  case measure => exact absurd rfl hmeasure
  all_goals exact ⟨_, rfl, rfl, rfl⟩

end RegisterGate

/-! ### Qubits above an idle part -/

/-- The qubit counted from `k` on. -/
def Qubit.lowered (k : Nat) (q : Qubit) : Qubit := .ofNat (q.toNat - k)

section Lowered

variable {k : Nat} {size size' : UInt32} {q : Qubit}

theorem Qubit.toNat_lowered (k : Nat) (q : Qubit) : (q.lowered k).toNat = q.toNat - k := by
  have hlt : q.toNat < UInt32.size := q.toNat_lt
  exact UInt32.toNat_ofNat_of_lt' (by omega)

variable (hsize : size'.toNat = size.toNat - k) (hlt : q < size) (hle : k ≤ q.toNat)
include hsize hlt hle

theorem Qubit.mirrored_lt_lowered : q.mirrored size < size' := by
  have hmirrored := toNat_mirrored hlt
  rw [UInt32.lt_iff_toNat_lt] at *
  omega

/-- **Mirrored twice against different sizes, a qubit moves down** by the difference. -/
theorem Qubit.mirrored_mirrored_eq_lowered : (q.mirrored size).mirrored size' = q.lowered k := by
  have hback := toNat_mirrored (mirrored_lt_lowered hsize hlt hle)
  rw [toNat_mirrored hlt] at hback
  rw [UInt32.lt_iff_toNat_lt] at hlt
  apply UInt32.toNat_inj.1
  rw [hback, toNat_lowered]
  omega

end Lowered

/-! ### Lowered instructions -/

section Shrunk

variable {α : Type}

/-- The instruction on the qubits counted from `k` on. -/
def RegisterInstruction.lowered (k : Nat) (inst : RegisterInstruction α) : RegisterInstruction α :=
  ⟨inst.gate, inst.qubits.map (Qubit.lowered k)⟩

/-- The circuit without measurements, without classical bits and without the idle qubits below the
least one that is acted on. -/
def RegisterCircuit.shrunk (c : RegisterCircuit α) : RegisterCircuit α where
  qubitCount := .ofNat (c.qubitCount.toNat - c.leastUsed)
  clbitCount := 0
  instructions := (c.instructions.filter (!·.gate.isMeasurement)).map (·.lowered c.leastUsed)

variable [Scalar α] {k : Nat} {size size' : UInt32}

/-- The record of an instruction is stored as the lowered instruction. -/
theorem RegisterInstruction.Valid.exists_stores_lowered {inst : RegisterInstruction α}
    (h : inst.Valid size) (hgate : inst.gate.isDirect) (hmeasure : ¬ inst.gate.isMeasurement)
    (hsize : size'.toNat = size.toNat - k) (hle : ∀ q ∈ inst.qubits, k ≤ q.toNat) :
    ∃ r, inst.records size = [r] ∧ Stores size' r (inst.lowered k) := by
  obtain ⟨r, hr, hqubits, hofRecord⟩ :=
    RegisterGate.exists_record hgate hmeasure (inst.qubits.map (Qubit.mirrored size))
  have hmem : r ∈ (inst.exported size).map GateCall.record := by
    rw [map_record_exported, records, hr]
    exact List.mem_singleton_self r
  obtain ⟨call, hcall, rfl⟩ := List.mem_map.1 hmem
  refine ⟨_, hr, ?_, ?_, hofRecord, ?_⟩
  · exact wellFormed_record_of_mem_exported h (RegisterGate.exportable_of_isDirect hgate) hcall
  · rw [hqubits, List.forall_mem_map]
    exact fun q hq => Qubit.mirrored_lt_lowered hsize (h.lt q hq) (hle q hq)
  · rw [hqubits, List.map_map]
    exact List.map_congr_left fun q hq =>
      (Qubit.mirrored_mirrored_eq_lowered hsize (h.lt q hq) (hle q hq)).symm

/-- **The records of instructions are stored as the lowered instructions**, and measurements not at
all. -/
theorem forall₂_stores_lowered {insts : List (RegisterInstruction α)}
    (h : ∀ inst ∈ insts, inst.Valid size ∧ inst.gate.isDirect)
    (hsize : size'.toNat = size.toNat - k)
    (hle : ∀ inst ∈ insts, ¬ inst.gate.isMeasurement → ∀ q ∈ inst.qubits, k ≤ q.toNat) :
    List.Forall₂ (RegisterInstruction.Stores size') (insts.flatMap (·.records size))
      ((insts.filter (!·.gate.isMeasurement)).map (·.lowered k)) := by
  induction insts with
  | nil => exact .nil
  | cons inst insts ih =>
    obtain ⟨⟨hvalid, hgate⟩, hinsts⟩ := List.forall_mem_cons.1 h
    obtain ⟨hleInst, hleInsts⟩ := List.forall_mem_cons.1 hle
    rw [List.flatMap_cons]
    by_cases hmeasure : inst.gate.isMeasurement
    · have hnil : inst.records size = [] := by
        rw [← inst.map_record_exported,
          (exported_eq_nil_iff (RegisterGate.exportable_of_isDirect hgate)).2 hmeasure,
          List.map_nil]
      rw [hnil, List.nil_append, List.filter_cons_of_neg (by simp [hmeasure])]
      exact ih hinsts hleInsts
    · obtain ⟨r, hr, hstores⟩ :=
        hvalid.exists_stores_lowered hgate hmeasure hsize (hleInst hmeasure)
      rw [hr, List.singleton_append, List.filter_cons_of_pos (by simp [hmeasure]), List.map_cons]
      exact .cons hstores (ih hinsts hleInsts)

namespace RegisterCircuit

/-- **The records of a circuit make the shrunk circuit.** -/
theorem ofRecords_records {c : RegisterCircuit α}
    (h : ∀ inst ∈ c.instructions, inst.Valid c.qubitCount ∧ inst.gate.isDirect) :
    ofRecords c.records = .ok c.shrunk := by
  have hconvertible : c.Convertible := fun inst hinst =>
    ⟨(h inst hinst).1, RegisterGate.exportable_of_isDirect (h inst hinst).2⟩
  have hsize := toNat_sizeOf_exported hconvertible
  rw [map_record_exported] at hsize
  refine ofRecords_eq_ok_iff.2 ⟨?_, rfl, ?_⟩
  · apply UInt32.toNat_inj.1
    have hlt : c.qubitCount.toNat < UInt32.size := c.qubitCount.toNat_lt
    rw [hsize]
    exact UInt32.toNat_ofNat_of_lt' (by omega)
  · exact forall₂_stores_lowered h hsize fun inst hinst hmeasure q hq =>
      leastUsed_le (mem_usedQubits.2 ⟨inst, hinst, hmeasure, hq⟩)

end RegisterCircuit

end Shrunk

/-- **Register round trips.** An accepted canonical circuit comes back from a register circuit with
each of its records in its canonical spelling. A register circuit of gates with a canonical gate of
their own, with finite angles, comes back without measurements and classical bits, and moved down to
the least qubit that is acted on. -/
theorem register_round_trip :
    (∀ (c : Circuit) (r : RegisterCircuit Float), RegisterCircuit.ofCircuit c = .ok r →
      ∃ rs, c.gates = .ok rs ∧ r.toCircuit = .ok (Circuit.ofRecords rs)) ∧
    ∀ r : RegisterCircuit Float, r.Built →
      (∀ inst ∈ r.instructions, inst.gate.isDirect ∧ ∀ x ∈ inst.gate.angles, x.isFinite) →
      ∃ c, r.toCircuit = .ok c ∧ RegisterCircuit.ofCircuit c = .ok r.shrunk := by
  constructor
  · intro c r h
    obtain ⟨rs, hrs, hr⟩ := bind_eq_ok h
    refine ⟨rs, mapError_eq_ok hrs, ?_⟩
    rw [RegisterCircuit.toCircuit_eq (RegisterCircuit.convertible_of_ofRecords hr),
      RegisterCircuit.exported_eq hr, Circuit.ofRecords_eq]
  · intro r hbuilt hgates
    have hdirect : ∀ inst ∈ r.instructions, inst.Valid r.qubitCount ∧ inst.gate.isDirect :=
      fun inst hinst => ⟨hbuilt.valid inst hinst, (hgates inst hinst).1⟩
    have hconvertible : r.Convertible := fun inst hinst =>
      ⟨(hdirect inst hinst).1, RegisterGate.exportable_of_isDirect (hdirect inst hinst).2⟩
    refine ⟨_, RegisterCircuit.toCircuit_eq hconvertible, ?_⟩
    rw [RegisterCircuit.ofCircuit,
      RegisterCircuit.gates_exported hconvertible fun inst hinst => (hgates inst hinst).2,
      RegisterCircuit.map_record_exported]
    exact RegisterCircuit.ofRecords_records hdirect

/-- A canonical circuit with a formula and a gap, and a register with two idle qubits, one of them
measured. -/
theorem register_round_trip_idle :
    (∃ rs, Circuit.gates ⟨["rz( PI/2 )(1)", "CX(0, 3)"]⟩ = .ok rs ∧
      RegisterCircuit.toCircuit ⟨4, 0, [⟨.rz (Scalar.pi / Scalar.two), [2]⟩, ⟨.cx, [3, 0]⟩]⟩ =
        .ok (Circuit.ofRecords rs)) ∧
    ∃ c, RegisterCircuit.toCircuit
        ⟨4, 2, [⟨.measure 1, [0]⟩, ⟨.rz (-Scalar.half), [3]⟩, ⟨.cx, [2, 3]⟩]⟩ = .ok c ∧
      RegisterCircuit.ofCircuit c = .ok ⟨2, 0, [⟨.rz (-Scalar.half), [1]⟩, ⟨.cx, [0, 1]⟩]⟩ := by
  have hbuilt : RegisterCircuit.Built (α := Float)
      ⟨4, 2, [⟨.measure 1, [0]⟩, ⟨.rz (-Scalar.half), [3]⟩, ⟨.cx, [2, 3]⟩]⟩ :=
    .append (.append (.append (.new 4 2)
      (show RegisterCircuit.append _ (.measure 1) [0] = _ from rfl))
      (show RegisterCircuit.append _ (.rz (-Scalar.half)) [3] = _ from rfl))
      (show RegisterCircuit.append _ .cx [2, 3] = _ from rfl)
  constructor
  · exact register_round_trip.1 ⟨["rz( PI/2 )(1)", "CX(0, 3)"]⟩ _ (by decide +kernel)
  · exact register_round_trip.2 _ hbuilt (by
      simp only [List.forall_mem_cons]
      exact ⟨⟨rfl, by decide +kernel⟩, ⟨rfl, by decide +kernel⟩, ⟨rfl, by decide +kernel⟩, by simp⟩)

end CircuitExchange
