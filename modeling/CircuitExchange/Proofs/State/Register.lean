import Mathlib
import CircuitExchange.Proofs.Register.Export
import CircuitExchange.Proofs.State.Euler
import CircuitExchange.Proofs.State.Scheduled

/-!
Exporting a register circuit preserves the state up to a global phase. The phases of the gates of a
whole circuit multiply. The exported circuit has the bits of the register without those below the
least one acted on, which stay zero.

* `exists_realizes`: the calls of a gate do what the gate does, up to a phase.
* `Embeds`: a state with idle low bits and the state of the bits above.
* `RegisterCircuit.exists_simulates`: a circuit and its calls, step by step.
* `register_export_preserves_state`: the states before and after the export.
-/

namespace CircuitExchange

/-! ### The calls of a gate -/

theorem real_halfPi : (Scalar.pi / Scalar.two : ℝ) = Real.pi / 2 := by rw [real_pi, real_two]

/-- The rotations of a general rotation, by the angles they are evaluated to. -/
noncomputable def eulerOperations (theta phi lambda : ℝ) : List (Operation ℝ) :=
  [.rz (lambda - Scalar.pi / Scalar.two), .rx theta, .rz (phi + Scalar.pi / Scalar.two)]

theorem realizes_euler (theta phi lambda : ℝ) :
    Realizes (eulerOperations theta phi lambda) (halfPhase (phi + lambda))
      (.u theta phi lambda) := by
  rw [eulerOperations, real_halfPi]
  exact realizes_u theta phi lambda

section Runs

variable {qubits : List Qubit}

theorem runs_euler {theta : Angle ℝ} {phi lambda : ℝ}
    (harity : ∀ call ∈ RegisterInstruction.euler theta phi lambda qubits,
      call.record.checkArity = .ok ()) :
    List.Forall₂ Record.Runs
      ((RegisterInstruction.euler theta phi lambda qubits).map GateCall.record)
      ((eulerOperations theta.eval phi lambda).map (·, qubits)) := by
  simp only [RegisterInstruction.euler, List.forall_mem_cons] at harity
  obtain ⟨hfirst, hsecond, hthird, -⟩ := harity
  refine .cons ⟨?_, rfl⟩ (.cons ⟨?_, rfl⟩ (.cons ⟨?_, rfl⟩ .nil))
  · rw [Record.operation, hfirst]
    rfl
  · rw [Record.operation, hsecond]
    rfl
  · rw [Record.operation, hthird]
    rfl

/-- **The calls of a gate run operations that realize its operation.** -/
theorem exists_realizes {gate : RegisterGate ℝ} (h : gate.Exportable) {op : Operation ℝ}
    (hop : gate.operation? = some op) {calls : List (GateCall ℝ)}
    (hcalls : RegisterInstruction.gateCalls gate qubits = .ok calls)
    (hwellFormed : ∀ call ∈ calls, call.record.WellFormed) :
    ∃ ops g, ‖g‖ = 1 ∧ Realizes ops g op ∧
      List.Forall₂ Record.Runs (calls.map GateCall.record) (ops.map (·, qubits)) := by
  have harity : ∀ call ∈ calls, call.record.checkArity = .ok () := fun call hcall =>
    (Record.checkArity_eq_ok_iff _).2 (hwellFormed call hcall)
  cases gate
  case sdg => exact absurd rfl h.ne_sdg
  case tdg => exact absurd rfl h.ne_tdg
  case measure => cases hop
  case u1 lambda =>
    obtain rfl := Option.some.inj hop
    obtain rfl := Except.ok.inj hcalls
    refine ⟨_, _, norm_halfPhase lambda, realizes_phase lambda, .cons ⟨?_, rfl⟩ .nil⟩
    rw [Record.operation, harity _ (List.mem_singleton_self _)]
    rfl
  case u2 phi lambda =>
    obtain rfl := Option.some.inj hop
    obtain rfl := Except.ok.inj hcalls
    exact ⟨_, _, norm_halfPhase _, realizes_euler _ phi lambda, runs_euler harity⟩
  case u3 theta phi lambda =>
    obtain rfl := Option.some.inj hop
    obtain rfl := Except.ok.inj hcalls
    exact ⟨_, _, norm_halfPhase _, realizes_euler theta phi lambda, runs_euler harity⟩
  all_goals
    obtain rfl := Option.some.inj hop
    obtain rfl := Except.ok.inj hcalls
    refine ⟨_, _, norm_one, realizes_self _, .cons ⟨?_, rfl⟩ .nil⟩
    rw [Record.operation, harity _ (List.mem_singleton_self _)]
    rfl

end Runs

/-! ### Idle low bits -/

section Embedding

variable {k : Nat} {g : ℂ} {v w : Nat → ℂ}

/-- Shifting the bits and the index does not change what becomes of an amplitude. -/
theorem entry_shift (op : Operation ℝ) (bits : List Nat) (k i : Nat) (a b : Amplitude ℝ) :
    op.entry (bits.map (· + k)) (i <<< k) a b = op.entry bits i a b := by
  have hbit : ∀ bit ∈ bits, (i <<< k).testBit (bit + k) = i.testBit (id bit) := fun bit _ => by
    rw [Nat.testBit_shiftLeft, Nat.add_sub_cancel, decide_eq_true (Nat.le_add_left ..),
      Bool.true_and, id]
  rw [Operation.entry_map_congr hbit, List.map_id]

theorem mask_shift (op : Operation ℝ) (bits : List Nat) (k : Nat) :
    op.mask (bits.map (· + k)) = op.mask bits <<< k := by
  have hmask : op.mask (bits.map id) <<< k = op.mask (bits.map (· + k)) :=
    Operation.mask_map (· <<< k) (fun _ _ => Nat.shiftLeft_xor_distrib)
      fun _ _ => (Nat.shiftLeft_add ..).symm
  rw [← hmask, List.map_id]

/-- The second state is that of the bits from `k` on of the first one, times a factor; the bits
below are zero. -/
structure Embeds (k : Nat) (g : ℂ) (v w : Nat → ℂ) : Prop where
  eq : ∀ i, w i = g * v (i <<< k)
  zero : ∀ j, ¬ 2 ^ k ∣ j → v j = 0

theorem Embeds.scale (h : Embeds k g v w) (g' : ℂ) : Embeds k (g' * g) v fun i => g' * w i :=
  ⟨fun i => by rw [h.eq, mul_assoc], h.zero⟩

/-- **An operation on the bits from `k` on keeps the bits below at zero.** -/
theorem Embeds.act (h : Embeds k g v w) (op : Operation ℝ) (bits : List Nat) :
    Embeds k g (op.act (bits.map (· + k)) v) (op.act bits w) := by
  constructor
  · intro i
    simp only [Operation.act, Operation.stay, Operation.cross, entry_shift, mask_shift, h.eq,
      Nat.shiftLeft_xor_distrib]
    ring
  · intro j hj
    have hpartner : ¬ 2 ^ k ∣ j ^^^ op.mask (bits.map (· + k)) := by
      rw [mask_shift, Nat.dvd_iff_mod_eq_zero, Nat.xor_mod_two_pow, Nat.shiftLeft_eq,
        Nat.mul_mod_left, Nat.xor_zero, ← Nat.dvd_iff_mod_eq_zero]
      exact hj
    rw [Operation.act, h.zero j hj, h.zero _ hpartner, mul_zero, mul_zero, add_zero]

end Embedding

/-! ### Simulation -/

section Simulation

variable {n k : Nat} {g g' : ℂ}

/-- From states one of which embeds the other, a program on the whole register and one on the
qubits from `k` on lead to such states again, with one more factor. -/
def Simulates (n k : Nat) (g : ℂ) (program program' : Program ℝ) : Prop :=
  ∀ (s t : Statevector ℝ) (h : ℂ), s.qubitCount = n → t.qubitCount = n - k →
    Embeds k h s.wave t.wave →
    Embeds k (g * h) (program.foldl BitOrder.littleEndian.applyTo s).wave
      (program'.foldl BitOrder.bigEndian.applyTo t).wave

theorem simulates_nil : Simulates n k 1 [] [] := by
  intro s t h _ _ hembeds
  rw [one_mul]
  exact hembeds

theorem Simulates.append {p p' q q' : Program ℝ} (h : Simulates n k g p p')
    (h' : Simulates n k g' q q') : Simulates n k (g' * g) (p ++ q) (p' ++ q') := by
  intro s t factor hs ht hembeds
  rw [List.foldl_append, List.foldl_append, mul_assoc]
  exact h' _ _ _ ((qubitCount_foldl ..).trans hs) ((qubitCount_foldl ..).trans ht)
    (h s t factor hs ht hembeds)

/-- The position of a qubit of the register, and that of the mirrored qubit from the other end. -/
theorem position_mirrored {size : UInt32} {q : Qubit} (hlt : q < size) (hle : k ≤ q.toNat) :
    BitOrder.littleEndian.position size.toNat q =
      BitOrder.bigEndian.position (size.toNat - k) (q.mirrored size) + k := by
  rw [UInt32.lt_iff_toNat_lt] at hlt
  simp only [BitOrder.position, Qubit.toNat_mirrored (UInt32.lt_iff_toNat_lt.2 hlt)]
  omega

/-- **One instruction**: its operation, and what realizes it on the mirrored qubits. -/
theorem simulates_realizes {size : UInt32} {op : Operation ℝ} {ops : List (Operation ℝ)}
    {qubits : List Qubit} (hrealizes : Realizes ops g op) (hlt : ∀ q ∈ qubits, q < size)
    (hle : ∀ q ∈ qubits, k ≤ q.toNat) (hfits : FitsRegister (op, qubits) size.toNat)
    (hfits' : ∀ op' ∈ ops,
      FitsRegister (op', qubits.map (Qubit.mirrored size)) (size.toNat - k)) :
    Simulates size.toNat k g [(op, qubits)] (ops.map (·, qubits.map (Qubit.mirrored size))) := by
  intro s t h hs ht hembeds
  have hpositions : qubits.map (BitOrder.littleEndian.position size.toNat) =
      ((qubits.map (Qubit.mirrored size)).map
        (BitOrder.bigEndian.position (size.toNat - k))).map (· + k) := by
    rw [List.map_map, List.map_map]
    exact List.map_congr_left fun q hq => position_mirrored (hlt q hq) (hle q hq)
  rw [wave_foldl (ht ▸ hfits'), ht, hrealizes _ _ (by simpa using hfits.length), List.foldl_cons,
    List.foldl_nil, wave_applyTo (hs ▸ hfits), hs, hpositions]
  exact (hembeds.act op _).scale g

end Simulation

namespace RegisterGate

/-- Measurements are the gates without an operation. -/
theorem operation?_eq_none_iff {gate : RegisterGate ℝ} :
    gate.operation? = none ↔ gate.isMeasurement := by
  cases gate <;> simp [operation?, isMeasurement]

theorem arity_of_operation? {gate : RegisterGate ℝ} {op : Operation ℝ}
    (h : gate.operation? = some op) : op.arity = gate.qubitCount := by
  cases gate
  case measure => cases h
  all_goals
    obtain rfl := Option.some.inj h
    rfl

end RegisterGate

/-- The steps of an instruction, none for a measurement. -/
noncomputable def RegisterInstruction.steps (inst : RegisterInstruction ℝ) : Program ℝ :=
  (inst.gate.operation?.map (·, inst.qubits)).toList

theorem RegisterCircuit.program_eq (c : RegisterCircuit ℝ) :
    c.program = c.instructions.flatMap RegisterInstruction.steps :=
  List.filterMap_eq_flatMap_toList ..

section Instruction

variable {inst : RegisterInstruction ℝ} {size : UInt32} (hvalid : inst.Valid size)
include hvalid

theorem RegisterInstruction.Valid.fitsRegister {step : Operation ℝ × List Qubit}
    (h : step ∈ inst.steps) : FitsRegister step size.toNat := by
  obtain ⟨op, hop, rfl⟩ := Option.map_eq_some_iff.1 (Option.mem_toList.1 h)
  exact ⟨hvalid.length.trans (RegisterGate.arity_of_operation? hop).symm, hvalid.nodup,
    fun q hq => UInt32.lt_iff_toNat_lt.1 (hvalid.lt q hq)⟩

/-- The steps of an instruction are simulated by those of its calls. -/
theorem RegisterInstruction.Valid.exists_simulates {k : Nat} (hgate : inst.gate.Exportable)
    (hle : ¬ inst.gate.isMeasurement → ∀ q ∈ inst.qubits, k ≤ q.toNat) :
    ∃ program g, ‖g‖ = 1 ∧
      List.Forall₂ Record.Runs ((inst.exported size).map GateCall.record) program ∧
      Simulates size.toNat k g inst.steps program := by
  cases hop : inst.gate.operation? with
  | none =>
    have hsteps : inst.steps = [] := by
      rw [steps, hop]
      rfl
    have hmeasure := RegisterGate.operation?_eq_none_iff.1 hop
    rw [(exported_eq_nil_iff hgate).2 hmeasure, hsteps]
    exact ⟨[], 1, norm_one, .nil, simulates_nil⟩
  | some op =>
    have hsteps : inst.steps = [(op, inst.qubits)] := by
      rw [steps, hop]
      rfl
    have hmeasure : ¬ inst.gate.isMeasurement := fun h => by
      rw [RegisterGate.operation?_eq_none_iff.2 h] at hop
      cases hop
    obtain ⟨ops, g, hg, hrealizes, hruns⟩ := exists_realizes hgate hop (gateCalls_eq_exported hgate)
      fun call hcall => wellFormed_record_of_mem_exported hvalid hgate hcall
    refine ⟨_, g, hg, hruns, ?_⟩
    rw [hsteps]
    refine simulates_realizes hrealizes hvalid.lt (hle hmeasure)
      (hvalid.fitsRegister (hsteps ▸ List.mem_singleton_self _)) fun op' hop' => ?_
    obtain ⟨r, hr, hrun⟩ := exists_mem_of_forall₂ hruns (List.mem_map_of_mem hop')
    refine hrun.fitsRegister fun q hq => ?_
    rw [← hrun.qubits] at hq
    obtain ⟨q', hq', rfl⟩ := List.mem_map.1 hq
    have hlt := UInt32.lt_iff_toNat_lt.1 (hvalid.lt q' hq')
    have hleast := hle hmeasure q' hq'
    rw [Qubit.toNat_mirrored (hvalid.lt q' hq')]
    omega

end Instruction

/-- **A circuit is simulated by its calls**, on the qubits from the least one that is acted on. -/
theorem RegisterCircuit.exists_simulates {c : RegisterCircuit ℝ} (h : c.Convertible) :
    ∃ program g, ‖g‖ = 1 ∧ Record.program (c.exported.map GateCall.record) = .ok program ∧
      Simulates c.qubitCount.toNat c.leastUsed g c.program program := by
  have hle : ∀ inst ∈ c.instructions, ¬ inst.gate.isMeasurement →
      ∀ q ∈ inst.qubits, c.leastUsed ≤ q.toNat := fun inst hinst hmeasure q hq =>
    leastUsed_le (mem_usedQubits.2 ⟨inst, hinst, hmeasure, hq⟩)
  simp only [Record.program_eq_ok_iff, program_eq, exported]
  generalize c.leastUsed = k at hle
  generalize hinsts : c.instructions = insts at hle
  rw [Convertible, hinsts] at h
  clear hinsts
  induction insts with
  | nil => exact ⟨[], 1, norm_one, .nil, simulates_nil⟩
  | cons inst insts ih =>
    obtain ⟨hinst, hinsts⟩ := List.forall_mem_cons.1 h
    obtain ⟨hleInst, hleInsts⟩ := List.forall_mem_cons.1 hle
    obtain ⟨p, g, hg, hruns, hsimulates⟩ := hinst.1.exists_simulates hinst.2 hleInst
    obtain ⟨p', g', hg', hruns', hsimulates'⟩ := ih hinsts hleInsts
    refine ⟨p ++ p', g' * g, by rw [norm_mul, hg, hg', one_mul], ?_, ?_⟩
    · rw [List.flatMap_cons, List.map_append]
      exact List.rel_append hruns hruns'
    · rw [List.flatMap_cons]
      exact hsimulates.append hsimulates'

/-! ### The state before and after the export -/

/-- The calls have the final state of the circuit, up to a global phase, on the qubits from `k` on;
all other amplitudes of the circuit are zero. -/
def RegisterCircuit.AgreesUpToPhase (c : RegisterCircuit ℝ) (k : Nat)
    (calls : List (GateCall ℝ)) : Prop :=
  ∃ v w g, c.statevector = .ok v ∧ Record.statevector (calls.map GateCall.record) = .ok w ∧
    v.qubitCount = c.qubitCount.toNat ∧ w.qubitCount = c.qubitCount.toNat - k ∧ ‖g‖ = 1 ∧
    (∀ i < 2 ^ w.qubitCount, w.wave i = g * v.wave (i * 2 ^ k)) ∧
    ∀ j < 2 ^ v.qubitCount, (∀ i < 2 ^ w.qubitCount, j ≠ i * 2 ^ k) → v.wave j = 0

/-- The state in which every qubit is zero is that of any number of its qubits. -/
theorem embeds_zero (n m k : Nat) :
    Embeds k 1 (Statevector.zero n : Statevector ℝ).wave (Statevector.zero m).wave := by
  constructor
  · intro i
    rw [Statevector.wave_zero, Statevector.wave_zero, one_mul, Nat.shiftLeft_eq]
    simp
  · intro j hj
    rw [Statevector.wave_zero, if_neg]
    rintro rfl
    exact hj (Nat.dvd_zero _)

theorem agreesUpToPhase_exported {c : RegisterCircuit ℝ} (h : c.Convertible)
    (hsize : c.qubitCount.toNat ≤ maxQubits) : c.AgreesUpToPhase c.leastUsed c.exported := by
  obtain ⟨program, g, hg, hprogram, hsimulates⟩ := c.exists_simulates h
  have hcount := c.toNat_sizeOf_exported h
  have hsize' : (Circuit.sizeOf (c.exported.map GateCall.record)).toNat ≤ maxQubits := by omega
  have hfits : ∀ step ∈ c.program, FitsRegister step c.qubitCount.toNat := by
    intro step hstep
    rw [c.program_eq] at hstep
    obtain ⟨inst, hinst, hstep⟩ := List.mem_flatMap.1 hstep
    exact (h inst hinst).1.fitsRegister hstep
  have hrun := exists_run .littleEndian hsize hfits
  have hrun' : run (Circuit.sizeOf (c.exported.map GateCall.record)).toNat .bigEndian program =
      .ok (program.foldl BitOrder.bigEndian.applyTo
        (.zero (c.qubitCount.toNat - c.leastUsed))) := by
    rw [exists_run .bigEndian hsize' (Record.fitsRegister hprogram hsize'), hcount]
  have hembeds := hsimulates _ _ 1 rfl rfl
    (embeds_zero c.qubitCount.toNat (c.qubitCount.toNat - c.leastUsed) c.leastUsed)
  have hv := qubitCount_foldl .littleEndian c.program (.zero c.qubitCount.toNat)
  have hw := qubitCount_foldl .bigEndian program (.zero (c.qubitCount.toNat - c.leastUsed))
  refine ⟨_, _, g, ?_, ?_, hv, hw, hg, ?_, ?_⟩
  · rw [RegisterCircuit.statevector, hrun]
    rfl
  · rw [Record.statevector, hprogram]
    exact congrArg (Except.mapError SimulationError.run) hrun'
  · intro i _
    rw [hembeds.eq, mul_one, Nat.shiftLeft_eq]
  · rw [hv, hw]
    intro j hj hother
    refine hembeds.zero j ?_
    rintro ⟨i, rfl⟩
    refine hother i ?_ (Nat.mul_comm ..)
    have hpow : 2 ^ c.qubitCount.toNat =
        2 ^ c.leastUsed * 2 ^ (c.qubitCount.toNat - c.leastUsed) := by
      rw [← Nat.pow_add, Nat.add_sub_cancel' (c.leastUsed_le_qubitCount h)]
    exact Nat.lt_of_mul_lt_mul_left (hpow ▸ hj)

/-- On any bit of any state, the gate's operation and the operations in turn have the same result up
to one global phase. -/
def RegisterGate.ActsLike (gate : RegisterGate ℝ) (ops : List (Operation ℝ)) : Prop :=
  ∃ op g, gate.operation? = some op ∧ ‖g‖ = 1 ∧
    ∀ (s : Statevector ℝ) (bit : Nat), bit < s.qubitCount →
      ∃ t t', s.apply op [bit] = .ok t ∧ ops.foldlM (fun s op' => s.apply op' [bit]) s = .ok t' ∧
        ∀ k, t'.wave k = g * t.wave k

theorem exists_foldlM_apply {ops : List (Operation ℝ)} {s : Statevector ℝ} {bit : Nat}
    (hops : ∀ op ∈ ops, op.arity = 1) (hbit : bit < s.qubitCount) :
    ∃ t, ops.foldlM (fun s op => s.apply op [bit]) s = .ok t ∧
      t.wave = ops.foldl (fun v op => op.act [bit] v) s.wave := by
  induction ops generalizing s with
  | nil => exact ⟨s, rfl, rfl⟩
  | cons op ops ih =>
    obtain ⟨hop, hops⟩ := List.forall_mem_cons.1 hops
    have hfits : op.Fits [bit] s.qubitCount :=
      ⟨hop.symm, List.nodup_singleton bit, fun b hb => List.mem_singleton.1 hb ▸ hbit⟩
    obtain ⟨t, ht, hwave⟩ := ih (s := s.applyUnchecked op [bit]) hops hbit
    refine ⟨t, ?_, ?_⟩
    · rw [List.foldlM_cons, apply_eq_ok_iff.2 ⟨hfits, rfl⟩]
      exact ht
    · rw [hwave, Statevector.wave_applyUnchecked hfits]
      rfl

theorem Realizes.actsLike {gate : RegisterGate ℝ} {op : Operation ℝ} {ops : List (Operation ℝ)}
    {g : ℂ} (h : Realizes ops g op) (hgate : gate.operation? = some op) (hg : ‖g‖ = 1)
    (hop : op.arity = 1) (hops : ∀ op' ∈ ops, op'.arity = 1) : gate.ActsLike ops := by
  refine ⟨op, g, hgate, hg, fun s bit hbit => ?_⟩
  have hone : ∀ op' ∈ [op], op'.arity = 1 := fun op' hop' => List.mem_singleton.1 hop' ▸ hop
  obtain ⟨t, ht, hwave⟩ := exists_foldlM_apply hone hbit
  obtain ⟨t', ht', hwave'⟩ := exists_foldlM_apply hops hbit
  rw [List.foldlM_cons] at ht
  obtain ⟨t₁, ht₁, hnil⟩ := bind_eq_ok ht
  obtain rfl := Except.ok.inj hnil
  refine ⟨t₁, t', ht₁, ht', fun k => ?_⟩
  rw [hwave', h [bit] s.wave hop.symm, hwave]
  rfl

/-- **Exporting a register circuit preserves the state up to a global phase.** A circuit with finite
angles and exportable gates is exported, on as many qubits as there are from the least one that is
acted on. With its angles read as exact numbers, as every circuit of exact angles, it has the state
of its calls up to a global phase. The general rotations act like the rotations they are exported
as. -/
theorem register_export_preserves_state :
    (∀ r : RegisterCircuit Float, r.Built → r.qubitCount.toNat ≤ maxQubits →
      (∀ inst ∈ r.instructions, inst.gate.Exportable ∧ ∀ x ∈ inst.gate.angles, x.isFinite) →
      ∃ calls count, r.calls = .ok calls ∧ r.toCircuit = .ok ⟨calls.map GateCall.token⟩ ∧
        Circuit.gates ⟨calls.map GateCall.token⟩ = .ok (calls.map GateCall.record) ∧
        Circuit.qubitCount ⟨calls.map GateCall.token⟩ = .ok count ∧
        count.toNat = r.qubitCount.toNat - r.leastUsed ∧
        ∀ reading : Float → ℝ,
          (r.mapAngles reading).AgreesUpToPhase r.leastUsed
            (calls.map (GateCall.mapAngles reading))) ∧
    (∀ r : RegisterCircuit ℝ, r.Built → r.qubitCount.toNat ≤ maxQubits →
      (∀ inst ∈ r.instructions, inst.gate.Exportable) →
      ∃ calls, r.calls = .ok calls ∧ r.AgreesUpToPhase r.leastUsed calls) ∧
    ∀ theta phi lambda : ℝ,
      (RegisterGate.u3 theta phi lambda).ActsLike
        [.rz (lambda - Real.pi / 2), .rx theta, .rz (phi + Real.pi / 2)] ∧
      (RegisterGate.u2 phi lambda).ActsLike
        [.rz (lambda - Real.pi / 2), .rx (Real.pi / 2), .rz (phi + Real.pi / 2)] ∧
      (RegisterGate.u1 lambda).ActsLike [.rz lambda] := by
  refine ⟨?_, ?_, ?_⟩
  · intro r hbuilt hsize hgates
    have h : r.Convertible := fun inst hinst => ⟨hbuilt.valid inst hinst, (hgates inst hinst).1⟩
    have hrecords := RegisterCircuit.gates_exported h fun inst hinst => (hgates inst hinst).2
    refine ⟨r.exported, _, RegisterCircuit.calls_eq h, RegisterCircuit.toCircuit_eq h, hrecords,
      congrArg (Except.map Circuit.sizeOf) hrecords, r.toNat_sizeOf_exported h, ?_⟩
    intro reading
    rw [← RegisterCircuit.exported_mapAngles, ← r.leastUsed_mapAngles reading]
    exact agreesUpToPhase_exported (h.mapAngles reading) hsize
  · intro r hbuilt hsize hgates
    have h : r.Convertible := fun inst hinst => ⟨hbuilt.valid inst hinst, hgates inst hinst⟩
    exact ⟨r.exported, RegisterCircuit.calls_eq h, agreesUpToPhase_exported h hsize⟩
  · intro theta phi lambda
    have harity : ∀ theta : ℝ, ∀ op ∈ [Operation.rz (lambda - Real.pi / 2), .rx theta,
        .rz (phi + Real.pi / 2)], op.arity = 1 := by
      intro theta
      simp [Operation.arity]
    refine ⟨?_, ?_, ?_⟩
    · exact (realizes_u theta phi lambda).actsLike rfl (norm_halfPhase _) rfl (harity theta)
    · have hhalf : Scalar.halfPi = Real.pi / 2 := real_halfPi
      refine (realizes_u (Real.pi / 2) phi lambda).actsLike ?_ (norm_halfPhase _) rfl (harity _)
      rw [RegisterGate.operation?, hhalf]
    · exact (realizes_phase lambda).actsLike rfl (norm_halfPhase _) rfl (by simp [Operation.arity])

/-- A register whose first qubit is only measured. -/
def idleFirst : RegisterCircuit Float :=
  ⟨3, 1, [⟨.h, [1]⟩, ⟨.u2 Scalar.pi 0, [2]⟩, ⟨.measure 0, [0]⟩]⟩

theorem register_export_preserves_state_three :
    ∃ calls : List (GateCall Float), idleFirst.toCircuit = .ok ⟨calls.map GateCall.token⟩ ∧
      (idleFirst.mapAngles fun _ => Real.pi).AgreesUpToPhase 1
        (calls.map (GateCall.mapAngles fun _ => Real.pi)) := by
  have h₁ : RegisterCircuit.Built (⟨3, 1, [⟨.h, [1]⟩]⟩ : RegisterCircuit Float) :=
    .append (.new 3 1) (show RegisterCircuit.append (.new 3 1) .h [1] = _ by decide +kernel)
  have h₂ : RegisterCircuit.Built
      (⟨3, 1, [⟨.h, [1]⟩, ⟨.u2 Scalar.pi 0, [2]⟩]⟩ : RegisterCircuit Float) :=
    .append h₁ (show RegisterCircuit.append _ (.u2 Scalar.pi 0) [2] = _ by decide +kernel)
  have hbuilt : idleFirst.Built :=
    .append h₂ (show RegisterCircuit.append _ (.measure 0) [0] = _ by decide +kernel)
  obtain ⟨calls, -, -, hcircuit, -, -, -, hagrees⟩ :=
    register_export_preserves_state.1 idleFirst hbuilt (by decide) (by
      simp only [idleFirst, List.forall_mem_cons]
      refine ⟨⟨⟨nofun, nofun⟩, by decide +kernel⟩, ⟨⟨nofun, nofun⟩, by decide +kernel⟩,
        ⟨⟨nofun, nofun⟩, by decide +kernel⟩, by simp⟩)
  exact ⟨calls, hcircuit, hagrees fun _ => Real.pi⟩

end CircuitExchange
