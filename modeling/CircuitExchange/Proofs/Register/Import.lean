import Mathlib
import CircuitExchange.Proofs.Register.Export

/-!
Register circuits made of records. A record becomes one instruction, on the mirrored qubits of a
register of the implied size, and is exported as the call it came from.

* `RegisterInstruction.Stores`: what a record is stored as.
* `RegisterCircuit.ofRecords_eq_ok_iff`: the circuit made of records, instruction by instruction.
* `RegisterCircuit.exists_ofRecords_iff`: which records are accepted.
* `RegisterCircuit.exported_eq`: the records are exported unchanged.
-/

namespace CircuitExchange

/-! ### Mirrored qubits -/

section Mirrored

variable {size : UInt32} {q q' : Qubit}

theorem Qubit.mirrored_lt (h : q < size) : q.mirrored size < size := by
  have hmirrored := toNat_mirrored h
  rw [UInt32.lt_iff_toNat_lt] at *
  omega

/-- Counting from the other end twice leads back. -/
theorem Qubit.mirrored_mirrored (h : q < size) : (q.mirrored size).mirrored size = q := by
  apply UInt32.toNat_inj.1
  rw [toNat_mirrored (mirrored_lt h), toNat_mirrored h]
  rw [UInt32.lt_iff_toNat_lt] at h
  omega

end Mirrored

/-! ### Stored records -/

section Stores

variable {α : Type}

/-- The instruction holds the gate of a well formed record, on the mirrored qubits of a register
that has them. -/
structure RegisterInstruction.Stores (size : UInt32) (r : Record α)
    (inst : RegisterInstruction α) : Prop where
  wellFormed : r.WellFormed
  lt : ∀ q ∈ r.qubits, q < size
  gate : RegisterGate.ofRecord r = .ok inst.gate
  qubits : inst.qubits = r.qubits.map (Qubit.mirrored size)

theorem RegisterGate.exists_ofRecord {r : Record α} (h : r.WellFormed) :
    ∃ g, RegisterGate.ofRecord r = .ok g := by
  obtain ⟨name, params, qubits⟩ := r
  cases name
  case rx | ry | rz =>
    obtain ⟨theta, htheta⟩ := h.exists_angle rfl
    rw [RegisterGate.ofRecord, htheta]
    exact ⟨_, rfl⟩
  all_goals exact ⟨_, rfl⟩

/-- The gate of a record is on as many qubits, and neither a measurement nor an inverse. -/
theorem RegisterGate.of_ofRecord {r : Record α} {g : RegisterGate α}
    (h : RegisterGate.ofRecord r = .ok g) :
    g.qubitCount = r.name.qubitCount ∧ g.isMeasurement = false ∧ g.Exportable := by
  obtain ⟨name, params, qubits⟩ := r
  cases name
  case rx | ry | rz =>
    obtain ⟨theta, -, rfl⟩ := map_eq_ok h
    exact ⟨rfl, rfl, nofun, nofun⟩
  all_goals
    obtain rfl := Except.ok.inj h
    exact ⟨rfl, rfl, nofun, nofun⟩

theorem RegisterInstruction.exists_stores {size : UInt32} {r : Record α} (hr : r.WellFormed)
    (hlt : ∀ q ∈ r.qubits, q < size) : ∃ inst, RegisterInstruction.Stores size r inst := by
  obtain ⟨gate, hgate⟩ := RegisterGate.exists_ofRecord hr
  exact ⟨⟨gate, r.qubits.map (Qubit.mirrored size)⟩, hr, hlt, hgate, rfl⟩

/-- Well formed records are stored in every register that has their qubits. -/
theorem RegisterInstruction.exists_forall₂_stores {size : UInt32} {rs : List (Record α)}
    (h : ∀ r ∈ rs, r.WellFormed ∧ ∀ q ∈ r.qubits, q < size) :
    ∃ insts, List.Forall₂ (RegisterInstruction.Stores size) rs insts := by
  induction rs with
  | nil => exact ⟨[], .nil⟩
  | cons r rs ih =>
    obtain ⟨hr, hrs⟩ := List.forall_mem_cons.1 h
    obtain ⟨inst, hinst⟩ := exists_stores hr.1 hr.2
    obtain ⟨insts, hinsts⟩ := ih hrs
    exact ⟨inst :: insts, .cons hinst hinsts⟩

namespace RegisterInstruction.Stores

variable {size : UInt32} {r : Record α} {inst : RegisterInstruction α}

theorem valid (h : Stores size r inst) : inst.Valid size where
  length := by
    rw [h.qubits, List.length_map, h.wellFormed.qubitCount, (RegisterGate.of_ofRecord h.gate).1]
  nodup := by
    rw [h.qubits]
    exact h.wellFormed.nodup.map_on fun q hq q' hq' heq =>
      Qubit.mirrored_inj (h.lt q hq) (h.lt q' hq') heq
  lt := by
    rw [h.qubits, List.forall_mem_map]
    exact fun q hq => Qubit.mirrored_lt (h.lt q hq)

theorem map_mirrored (h : Stores size r inst) :
    inst.qubits.map (Qubit.mirrored size) = r.qubits := by
  rw [h.qubits, List.map_map]
  have hid := List.map_congr_left fun q hq => Qubit.mirrored_mirrored (h.lt q hq)
  exact hid.trans (List.map_id _)

/-- **What is stored of a record is exported as the record.** -/
theorem exported_eq (h : Stores size r inst) : inst.exported size = [r.call] := by
  have hparams := h.wellFormed.params_eq_nil
  have hgate := h.gate
  rw [exported, h.map_mirrored]
  obtain ⟨name, params, qubits⟩ := r
  obtain ⟨gate, qubits'⟩ := inst
  cases name
  case rx | ry | rz =>
    obtain ⟨theta, htheta, rfl⟩ := map_eq_ok hgate
    obtain rfl : params = [theta] := Record.angle_eq_ok htheta
    rfl
  all_goals
    obtain rfl : params = [] := hparams rfl
    obtain rfl := Except.ok.inj hgate
    rfl

end RegisterInstruction.Stores

end Stores

/-! ### Circuits of records -/

namespace RegisterCircuit

variable {α : Type}

/-- **A record is appended as what is stored of it.** -/
theorem appendRecord_eq_ok_iff {c c' : RegisterCircuit α} {r : Record α} :
    c.appendRecord r = .ok c' ↔ ∃ inst, RegisterInstruction.Stores c.qubitCount r inst ∧
      c' = { c with instructions := c.instructions ++ [inst] } := by
  constructor
  · intro h
    obtain ⟨_, harity, h⟩ := bind_eq_ok h
    obtain ⟨qubits, hqubits, h⟩ := bind_eq_ok h
    obtain ⟨gate, hgate, h⟩ := bind_eq_ok h
    have hr := r.checkArity_eq_ok_iff.1 (mapError_eq_ok harity)
    obtain ⟨hlt, rfl⟩ := mapM_reversed_eq_ok_iff.1 (mapError_eq_ok hqubits)
    have hstores : RegisterInstruction.Stores c.qubitCount r ⟨gate, _⟩ :=
      ⟨hr, hlt, mapError_eq_ok hgate, rfl⟩
    exact ⟨_, hstores, (of_append (mapError_eq_ok h)).2⟩
  · rintro ⟨inst, hinst, rfl⟩
    obtain ⟨hcount, hmeasure, -⟩ := RegisterGate.of_ofRecord hinst.gate
    have hvalid := hinst.valid
    have hclbit : c.checkClbit inst.gate = .ok () := by
      cases hgate : inst.gate
      case measure =>
        rw [hgate] at hmeasure
        cases hmeasure
      all_goals rfl
    have hqubits : checkQubits inst.gate.name c.qubitCount [] inst.qubits = .ok () :=
      checkQubits_eq_ok_iff.2 ⟨hvalid.nodup, fun q hq => ⟨hvalid.lt q hq, List.not_mem_nil⟩⟩
    have hcheck : c.check inst.gate inst.qubits = .ok () := by
      rw [check, if_neg (not_not_intro hvalid.length), hqubits]
      exact hclbit
    rw [appendRecord, r.checkArity_eq_ok_iff.2 hinst.wellFormed,
      mapM_reversed_eq_ok_iff.2 ⟨hinst.lt, rfl⟩, hinst.gate, ← hinst.qubits]
    change (c.append inst.gate inst.qubits).mapError _ = _
    rw [append, hcheck]
    rfl

theorem foldlM_appendRecord_eq_ok_iff {c c' : RegisterCircuit α} {rs : List (Record α)} :
    rs.foldlM appendRecord c = .ok c' ↔
      ∃ insts, List.Forall₂ (RegisterInstruction.Stores c.qubitCount) rs insts ∧
        c' = { c with instructions := c.instructions ++ insts } := by
  induction rs generalizing c with
  | nil =>
    constructor
    · intro h
      obtain rfl := Except.ok.inj h
      exact ⟨[], .nil, by rw [List.append_nil]⟩
    · rintro ⟨_, ⟨⟩, rfl⟩
      rw [List.append_nil]
      rfl
  | cons r rs ih =>
    rw [List.foldlM_cons]
    constructor
    · intro h
      obtain ⟨c₁, hc₁, h⟩ := bind_eq_ok h
      obtain ⟨inst, hinst, rfl⟩ := appendRecord_eq_ok_iff.1 hc₁
      obtain ⟨insts, hinsts, rfl⟩ := ih.1 h
      refine ⟨inst :: insts, .cons hinst hinsts, ?_⟩
      rw [List.append_assoc, List.singleton_append]
    · rintro ⟨_, hinst | ⟨hinst, hinsts⟩, rfl⟩
      rw [appendRecord_eq_ok_iff.2 ⟨_, hinst, rfl⟩]
      refine ih.2 ⟨_, hinsts, ?_⟩
      rw [List.append_assoc, List.singleton_append]

/-- **A circuit made of records stores them one by one**, in a register of the implied size. -/
theorem ofRecords_eq_ok_iff {rs : List (Record α)} {c : RegisterCircuit α} :
    ofRecords rs = .ok c ↔ c.qubitCount = Circuit.sizeOf rs ∧ c.clbitCount = 0 ∧
      List.Forall₂ (RegisterInstruction.Stores (Circuit.sizeOf rs)) rs c.instructions := by
  rw [ofRecords, foldlM_appendRecord_eq_ok_iff]
  constructor
  · rintro ⟨insts, hinsts, rfl⟩
    exact ⟨rfl, rfl, hinsts⟩
  · obtain ⟨size, clbits, insts⟩ := c
    rintro ⟨rfl, rfl, hinsts⟩
    exact ⟨insts, hinsts, rfl⟩

/-- **Register circuits accept well formed records** without the one index that a register of the
implied size does not have. -/
theorem exists_ofRecords_iff {rs : List (Record α)} :
    (∃ c, ofRecords rs = .ok c) ↔
      ∀ r ∈ rs, r.WellFormed ∧ ∀ q ∈ r.qubits, q < Circuit.sizeOf rs := by
  simp only [ofRecords_eq_ok_iff]
  generalize Circuit.sizeOf rs = size
  constructor
  · rintro ⟨c, -, -, hinsts⟩ r hr
    obtain ⟨inst, -, hinst⟩ := exists_mem_of_forall₂ hinsts.flip hr
    exact ⟨hinst.wellFormed, hinst.lt⟩
  · intro h
    obtain ⟨insts, hinsts⟩ := RegisterInstruction.exists_forall₂_stores h
    exact ⟨⟨size, 0, insts⟩, rfl, rfl, hinsts⟩

section Stored

variable {rs : List (Record α)} {c : RegisterCircuit α} (h : ofRecords rs = .ok c)
include h

theorem convertible_of_ofRecords : c.Convertible := by
  obtain ⟨hsize, -, hinsts⟩ := ofRecords_eq_ok_iff.1 h
  intro inst hinst
  obtain ⟨r, -, hstores⟩ := exists_mem_of_forall₂ hinsts hinst
  exact ⟨hsize ▸ hstores.valid, (RegisterGate.of_ofRecord hstores.gate).2.2⟩

/-- **The records are exported unchanged**, in their order. -/
theorem exported_eq : c.exported = rs.map Record.call := by
  obtain ⟨hsize, -, hinsts⟩ := ofRecords_eq_ok_iff.1 h
  have hcalls : c.instructions.map (·.exported c.qubitCount) = rs.map fun r => [r.call] := by
    refine map_eq_map_of_forall₂ (hinsts.flip.imp fun inst r hstores => ?_)
    rw [hsize]
    exact hstores.exported_eq
  rw [exported, List.flatMap_def, hcalls, ← List.flatMap_def]
  exact List.map_eq_flatMap.symm

end Stored

end RegisterCircuit

end CircuitExchange
