import Mathlib
import CircuitExchange.Proofs.Register.Export

/-!
What the exported text of a register circuit means. Angles of general rotations are written as
formulas and become numbers only when the tokens are read; the records that are read back are given
here gate by gate, with the numbers that the formulas stand for.

* `RegisterGate.records`: the records of a gate.
* `RegisterInstruction.map_record_exported`: the calls of an instruction stand for the records of
  its gate.
* `RegisterCircuit.toCircuit_eq_error`: the first gate without a canonical counterpart is named when
  the export fails.
* `exported_register_meaning`: the records of a whole circuit, or the first gate without any.
-/

namespace CircuitExchange

/-! ### Records of gates -/

namespace RegisterGate

variable {α : Type}

/-- The gate is one of the two inverses that have no canonical counterpart. -/
def isInverse : RegisterGate α → Bool
  | sdg | tdg => true
  | _ => false

theorem isInverse_iff {gate : RegisterGate α} : gate.isInverse ↔ gate = .sdg ∨ gate = .tdg := by
  cases gate <;> simp [isInverse]

theorem exportable_iff {gate : RegisterGate α} : gate.Exportable ↔ gate.isInverse = false := by
  rw [← Bool.not_eq_true, isInverse_iff, not_or]
  constructor
  · rintro ⟨hsdg, htdg⟩
    exact ⟨hsdg, htdg⟩
  · rintro ⟨hsdg, htdg⟩
    exact ⟨hsdg, htdg⟩

/-- Turns around `Z`, `X` and `Z` with the action of a general rotation up to a global phase. -/
def turns [Scalar α] (theta phi lambda : α) (qubits : List Qubit) : List (Record α) :=
  [⟨.rz, [lambda - Scalar.pi / Scalar.two], qubits⟩, ⟨.rx, [theta], qubits⟩,
    ⟨.rz, [phi + Scalar.pi / Scalar.two], qubits⟩]

/-- The records with the meaning of a gate. A measurement has none, and neither have the inverses,
which are not exported. -/
def records [Scalar α] (gate : RegisterGate α) (qubits : List Qubit) : List (Record α) :=
  match gate with
  | measure _ | sdg | tdg => []
  | id => [⟨.i, [], qubits⟩]
  | h => [⟨.h, [], qubits⟩]
  | x => [⟨.x, [], qubits⟩]
  | y => [⟨.y, [], qubits⟩]
  | z => [⟨.z, [], qubits⟩]
  | s => [⟨.s, [], qubits⟩]
  | t => [⟨.t, [], qubits⟩]
  | cx => [⟨.cx, [], qubits⟩]
  | cz => [⟨.cz, [], qubits⟩]
  | swap => [⟨.swap, [], qubits⟩]
  | ccx => [⟨.ccx, [], qubits⟩]
  | rx theta => [⟨.rx, [theta], qubits⟩]
  | ry theta => [⟨.ry, [theta], qubits⟩]
  | rz theta => [⟨.rz, [theta], qubits⟩]
  | u1 lambda => [⟨.rz, [lambda], qubits⟩]
  | u2 phi lambda => turns (Scalar.pi / Scalar.two) phi lambda qubits
  | u3 theta phi lambda => turns theta phi lambda qubits

end RegisterGate

section Records

variable {α : Type} [Scalar α]

/-- The records of an instruction, on the qubits counted from the other end of the register. -/
def RegisterInstruction.records (size : UInt32) (inst : RegisterInstruction α) : List (Record α) :=
  inst.gate.records (inst.qubits.map (Qubit.mirrored size))

/-- **The calls of an instruction stand for the records of its gate.** -/
theorem RegisterInstruction.map_record_exported (size : UInt32) (inst : RegisterInstruction α) :
    (inst.exported size).map GateCall.record = inst.records size := by
  obtain ⟨gate, qubits⟩ := inst
  cases gate <;> rfl

namespace RegisterCircuit

variable {c : RegisterCircuit α}

/-- The records of all instructions in turn. -/
def records (c : RegisterCircuit α) : List (Record α) :=
  c.instructions.flatMap (·.records c.qubitCount)

theorem map_record_exported (c : RegisterCircuit α) :
    c.exported.map GateCall.record = c.records := by
  rw [exported, List.map_flatMap, records]
  exact congrArg (List.flatMap · _) (funext (RegisterInstruction.map_record_exported c.qubitCount))

end RegisterCircuit

end Records

/-! ### Gates without records -/

section Inverses

variable {α : Type} {inst : RegisterInstruction α} {size : UInt32}

/-- An inverse is refused by its name, after its qubits have been found right. -/
theorem RegisterInstruction.calls_eq_error (hvalid : inst.Valid size)
    (h : inst.gate.isInverse = true) :
    inst.calls size = .error (.register (.unsupportedGate inst.gate.name)) := by
  rw [calls, if_neg (not_not_intro hvalid.length), mapM_reversed_eq_ok_iff.2 ⟨hvalid.lt, rfl⟩]
  obtain ⟨gate, qubits⟩ := inst
  cases gate
  case sdg | tdg => rfl
  all_goals cases h

/-- **The export fails at the first inverse**, and names it. -/
theorem RegisterCircuit.toCircuit_eq_error {c : RegisterCircuit Float}
    {inst : RegisterInstruction Float} (hvalid : ∀ inst ∈ c.instructions, inst.Valid c.qubitCount)
    (h : c.instructions.find? (·.gate.isInverse) = some inst) :
    c.toCircuit = .error (.register (.unsupportedGate inst.gate.name)) := by
  obtain ⟨hinverse, earlier, later, hinsts, hearlier⟩ := List.find?_eq_some_iff_append.1 h
  have hmem : ∀ i ∈ earlier, i ∈ c.instructions := fun i hi =>
    hinsts ▸ List.mem_append_left _ hi
  have hcalls : c.instructions.mapM (RegisterInstruction.calls c.qubitCount) =
      .error (.register (.unsupportedGate inst.gate.name)) := by
    rw [hinsts]
    refine mapM_append_eq_error (fun i hi => ?_) ?_
    · have hgate : i.gate.Exportable :=
        RegisterGate.exportable_iff.2 (by simpa using hearlier i hi)
      exact ⟨_, RegisterInstruction.calls_eq (hvalid i (hmem i hi)) hgate⟩
    · refine RegisterInstruction.calls_eq_error (hvalid inst ?_) hinverse
      rw [hinsts]
      exact List.mem_append_right _ (List.mem_cons_self ..)
  rw [toCircuit, calls, hcalls]
  rfl

end Inverses

/-- **The exported text means what the register circuit says.** A circuit with finite angles and no
inverse is exported, and its tokens are read back as the records of its instructions, in their order
and on the mirrored qubits: every angle is the number that its formula stands for. A circuit with an
inverse is not exported, and the error names the first one. -/
theorem exported_register_meaning {r : RegisterCircuit Float} (h : r.Built) :
    ((∀ inst ∈ r.instructions, inst.gate ≠ .sdg ∧ inst.gate ≠ .tdg ∧
        ∀ x ∈ inst.gate.angles, x.isFinite) →
      ∃ c, r.toCircuit = .ok c ∧ c.gates = .ok (r.instructions.flatMap fun inst =>
        inst.gate.records (inst.qubits.map fun q => r.qubitCount - 1 - q))) ∧
    ((∃ inst ∈ r.instructions, inst.gate = .sdg ∨ inst.gate = .tdg) →
      ∃ inst, r.instructions.find? (·.gate.isInverse) = some inst ∧
        (inst.gate = .sdg ∨ inst.gate = .tdg) ∧
        r.toCircuit = .error (.register (.unsupportedGate inst.gate.name))) := by
  constructor
  · intro hgates
    have hconvertible : r.Convertible := fun inst hinst =>
      ⟨h.valid inst hinst, (hgates inst hinst).1, (hgates inst hinst).2.1⟩
    refine ⟨_, RegisterCircuit.toCircuit_eq hconvertible, ?_⟩
    rw [RegisterCircuit.gates_exported hconvertible fun inst hinst => (hgates inst hinst).2.2,
      RegisterCircuit.map_record_exported]
    rfl
  · rintro ⟨inst, hinst, hgate⟩
    have hsome : (r.instructions.find? (·.gate.isInverse)).isSome :=
      List.find?_isSome.2 ⟨inst, hinst, RegisterGate.isInverse_iff.2 hgate⟩
    obtain ⟨first, hfirst⟩ := Option.isSome_iff_exists.1 hsome
    obtain ⟨hinverse, -⟩ := List.find?_eq_some_iff_append.1 hfirst
    exact ⟨first, hfirst, RegisterGate.isInverse_iff.1 hinverse,
      RegisterCircuit.toCircuit_eq_error h.valid hfirst⟩

/-- A measured general rotation by negative angles, alone and followed by inverses. -/
theorem exported_register_meaning_rotation :
    (∃ c, RegisterCircuit.toCircuit
        ⟨3, 1, [⟨.u3 Scalar.half (-Scalar.half) (-0), [0]⟩, ⟨.measure 0, [0]⟩]⟩ = .ok c ∧
      c.gates = .ok [⟨.rz, [-0 - Scalar.pi / Scalar.two], [2]⟩, ⟨.rx, [Scalar.half], [2]⟩,
        ⟨.rz, [-Scalar.half + Scalar.pi / Scalar.two], [2]⟩]) ∧
    RegisterCircuit.toCircuit ⟨3, 1, [⟨.u3 Scalar.half (-Scalar.half) (-0), [0]⟩,
      ⟨.measure 0, [0]⟩, ⟨.sdg, [2]⟩, ⟨.tdg, [1]⟩]⟩ =
        .error (.register (.unsupportedGate "sdg")) := by
  have hrotation : RegisterCircuit.Built (α := Float)
      ⟨3, 1, [⟨.u3 Scalar.half (-Scalar.half) (-0), [0]⟩, ⟨.measure 0, [0]⟩]⟩ :=
    .append (.append (.new 3 1) (show RegisterCircuit.append _ (.u3 _ _ _) [0] = _ from rfl))
      (show RegisterCircuit.append _ (.measure 0) [0] = _ from rfl)
  have hinverse : RegisterCircuit.Built (α := Float)
      ⟨3, 1, [⟨.u3 Scalar.half (-Scalar.half) (-0), [0]⟩, ⟨.measure 0, [0]⟩, ⟨.sdg, [2]⟩,
        ⟨.tdg, [1]⟩]⟩ :=
    .append (.append hrotation (show RegisterCircuit.append _ .sdg [2] = _ from rfl))
      (show RegisterCircuit.append _ .tdg [1] = _ from rfl)
  obtain ⟨c, hexport, hgates⟩ := (exported_register_meaning hrotation).1 (by
    simp only [List.forall_mem_cons]
    exact ⟨⟨nofun, nofun, by decide +kernel⟩, ⟨nofun, nofun, by decide +kernel⟩, by simp⟩)
  obtain ⟨inst, hfirst, -, herror⟩ :=
    (exported_register_meaning hinverse).2 ⟨⟨.sdg, [2]⟩, by simp, .inl rfl⟩
  obtain rfl := Option.some.inj hfirst
  exact ⟨⟨c, hexport, hgates⟩, herror⟩

end CircuitExchange
