import Mathlib
import CircuitExchange.Proofs.Register.Import
import CircuitExchange.Proofs.State.Scheduled

/-!
Conversion into a register circuit is exact. A register circuit counts its qubits from the other end
and its state is indexed from the other end as well, so that the two reversals cancel: the same
operations are applied to the same bits, with the same amplitudes whatever the numbers are.

* `BitOrder.bitProgram`: the operations of a program with the bits they act on.
* `run_eq_runBits`: a program runs as its operations on bits.
* `bit_of_reversed`: the two reversals cancel.
* `register_import_is_exact`: the same operations on the same bits, and the same outcome.
-/

namespace CircuitExchange

/-! ### Programs on bits -/

section Bits

variable {α : Type}

/-- The operations of a program with the bits they act on, if the register has all of its
qubits. -/
def BitOrder.bitProgram (order : BitOrder) (n : Nat) (program : Program α) :
    Except (RunError α) (List (Operation α × List Nat)) :=
  program.mapM fun step => do return (step.1, ← step.2.mapM fun q => order.bit q n)

/-- Applies operations to bits of a register of `n` qubits that are all zero. -/
def runBits [Scalar α] (n : Nat) (steps : List (Operation α × List Nat)) :
    Except (RunError α) (Statevector α) := do
  steps.foldlM (fun s step => s.apply step.1 step.2) (← Statevector.new n)

theorem bitProgram_eq {order : BitOrder} {n : Nat} {program : Program α}
    (h : ∀ step ∈ program, ∀ q ∈ step.2, q.toNat < n) :
    order.bitProgram n program =
      .ok (program.map fun step => (step.1, step.2.map (order.position n))) := by
  rw [BitOrder.bitProgram, mapM_eq_ok_iff, List.forall₂_map_right_iff]
  refine List.forall₂_same.2 fun step hstep => ?_
  rw [mapM_bit_eq_ok_iff.2 ⟨h step hstep, rfl⟩]
  rfl

/-- **A program runs as its operations on bits.** -/
theorem run_eq_runBits [Scalar α] {order : BitOrder} {n : Nat} {program : Program α}
    {steps : List (Operation α × List Nat)} (h : order.bitProgram n program = .ok steps) :
    run n order program = runBits n steps := by
  have hsteps := mapM_eq_ok_iff.1 h
  have hfold : ∀ s : Statevector α, s.qubitCount = n →
      program.foldlM (runStep order) s = steps.foldlM (fun s step => s.apply step.1 step.2) s := by
    clear h
    induction hsteps with
    | nil => exact fun s _ => rfl
    | @cons step bitStep _ _ hstep _ ih =>
      intro s hs
      obtain ⟨bits, hbits, heq⟩ := bind_eq_ok hstep
      obtain rfl := Except.ok.inj heq
      have hrunStep : runStep order s step = s.apply step.1 bits := by
        rw [runStep, hs, hbits]
        rfl
      rw [List.foldlM_cons, List.foldlM_cons, hrunStep]
      cases happly : s.apply step.1 bits with
      | error e => rfl
      | ok t =>
        obtain ⟨-, rfl⟩ := apply_eq_ok_iff.1 happly
        exact ih _ hs
  rw [run, runBits, Statevector.new]
  split
  · rfl
  · exact hfold _ rfl

/-- **The two reversals cancel**: a qubit and its mirror image are at the same bit. -/
theorem bit_of_reversed {size : UInt32} {q q' : Qubit} (h : q.reversed size = .ok q') :
    (BitOrder.littleEndian.bit q' size.toNat : Except (RunError α) Nat) =
      BitOrder.bigEndian.bit q size.toNat := by
  obtain ⟨hlt, rfl⟩ := reversed_eq_ok_iff.1 h
  have hposition : BitOrder.littleEndian.position size.toNat (q.mirrored size) =
      BitOrder.bigEndian.position size.toNat q := Qubit.toNat_mirrored hlt
  rw [bit_eq_ok_iff.2 ⟨UInt32.lt_iff_toNat_lt.1 (Qubit.mirrored_lt hlt), hposition⟩,
    bit_eq_ok_iff.2 ⟨UInt32.lt_iff_toNat_lt.1 hlt, rfl⟩]

end Bits

/-! ### Programs of register circuits -/

section Stored

variable {α : Type} [Scalar α]

/-- What is stored of a record runs the operation of the record. -/
theorem RegisterInstruction.Stores.operation?_eq {size : UInt32} {r : Record α}
    {inst : RegisterInstruction α} {step : Operation α × List Qubit}
    (h : RegisterInstruction.Stores size r inst) (hruns : r.Runs step) :
    inst.gate.operation? = some step.1 := by
  have harity := r.checkArity_eq_ok_iff.2 h.wellFormed
  have hgate := h.gate
  have hoperation := hruns.operation
  rw [Record.operation, harity] at hoperation
  obtain ⟨name, params, qubits⟩ := r
  obtain ⟨gate, qubits'⟩ := inst
  cases name
  case rx | ry | rz =>
    obtain ⟨theta, htheta, rfl⟩ := map_eq_ok hgate
    obtain rfl : params = [theta] := Record.angle_eq_ok htheta
    exact congrArg some (Except.ok.inj hoperation)
  all_goals
    obtain rfl := Except.ok.inj hgate
    exact congrArg some (Except.ok.inj hoperation)

/-- **A register circuit runs the operations of the records it stores**, on the mirrored qubits. -/
theorem program_of_stores {size : UInt32} {rs : List (Record α)} {c : RegisterCircuit α}
    (h : List.Forall₂ (RegisterInstruction.Stores size) rs c.instructions) {program : Program α}
    (hprogram : Record.program rs = .ok program) :
    c.program = program.map fun step => (step.1, step.2.map (Qubit.mirrored size)) := by
  refine filterMap_eq_of_forall₂ (List.forall₂_map_right_iff.2 ?_)
  refine (forall₂_of_common h (Record.program_eq_ok_iff.1 hprogram)).imp fun inst step hboth => ?_
  obtain ⟨r, hstores, hruns⟩ := hboth
  rw [hstores.operation?_eq hruns, hstores.qubits, hruns.qubits]
  rfl

/-- **The records and their register circuit apply the same operations to the same bits.** -/
theorem exists_bitProgram {rs : List (Record α)} {c : RegisterCircuit α}
    (h : RegisterCircuit.ofRecords rs = .ok c) :
    ∃ program steps, Record.program rs = .ok program ∧
      BitOrder.bigEndian.bitProgram c.qubitCount.toNat program = .ok steps ∧
      BitOrder.littleEndian.bitProgram c.qubitCount.toNat c.program = .ok steps := by
  have hrecords := RegisterCircuit.exists_ofRecords_iff.1 ⟨c, h⟩
  obtain ⟨hsize, -, hinsts⟩ := RegisterCircuit.ofRecords_eq_ok_iff.1 h
  obtain ⟨program, hprogram⟩ := Record.exists_program fun r hr => (hrecords r hr).1
  have hlt : ∀ step ∈ program, ∀ q ∈ step.2, q < c.qubitCount := by
    intro step hstep q hq
    obtain ⟨r, hr, hruns⟩ := exists_mem_of_forall₂ (Record.program_eq_ok_iff.1 hprogram) hstep
    rw [hsize]
    exact (hrecords r hr).2 q (hruns.qubits ▸ hq)
  rw [← hsize] at hinsts
  refine ⟨program, _, hprogram, bitProgram_eq fun step hstep q hq =>
    UInt32.lt_iff_toNat_lt.1 (hlt step hstep q hq), ?_⟩
  rw [program_of_stores hinsts hprogram, bitProgram_eq, List.map_map]
  · refine congrArg Except.ok (List.map_congr_left fun step hstep => ?_)
    refine Prod.ext rfl ((List.map_map ..).trans (List.map_congr_left fun q hq => ?_))
    exact Qubit.toNat_mirrored (hlt step hstep q hq)
  · intro step hstep q hq
    obtain ⟨step, hmem, rfl⟩ := List.mem_map.1 hstep
    obtain ⟨p, hp, rfl⟩ := List.mem_map.1 hq
    exact UInt32.lt_iff_toNat_lt.1 (Qubit.mirrored_lt (hlt step hmem p hp))

end Stored

/-- **Conversion into a register circuit is exact.** A qubit and its mirror image are at the same
bit of a state. So an accepted circuit and its register circuit apply the same operations to the
same bits and have the same outcome: one final state, or the error that the register is too
large. -/
theorem register_import_is_exact :
    (∀ (size : UInt32) (q q' : Qubit), q.reversed size = .ok q' →
      (BitOrder.littleEndian.bit q' size.toNat : Except (RunError Float) Nat) =
        BitOrder.bigEndian.bit q size.toNat) ∧
    ∀ (c : Circuit) (r : RegisterCircuit Float), RegisterCircuit.ofCircuit c = .ok r →
      r.statevector = c.statevector ∧
      ((∃ v, c.statevector = .ok v) ∨
        ∃ n, maxQubits < n ∧ c.statevector = .error (.run (.tooManyQubits n))) ∧
      ∃ rs program steps, c.gates = .ok rs ∧ Record.program rs = .ok program ∧
        r.qubitCount = Circuit.sizeOf rs ∧
        BitOrder.bigEndian.bitProgram r.qubitCount.toNat program = .ok steps ∧
        BitOrder.littleEndian.bitProgram r.qubitCount.toNat r.program = .ok steps ∧
        c.statevector = (runBits r.qubitCount.toNat steps).mapError .run := by
  refine ⟨fun size q q' h => bit_of_reversed h, fun c r h => ?_⟩
  obtain ⟨rs, hrs, hr⟩ := bind_eq_ok h
  have hgates := mapError_eq_ok hrs
  obtain ⟨hsize, -, -⟩ := RegisterCircuit.ofRecords_eq_ok_iff.1 hr
  obtain ⟨program, steps, hprogram, hbig, hlittle⟩ := exists_bitProgram hr
  have hrun : c.statevector = (runBits r.qubitCount.toNat steps).mapError .run := by
    rw [Circuit.statevector_eq hgates, Record.statevector_eq hprogram, ← run_eq_runBits hbig, hsize]
  refine ⟨?_, ?_, rs, program, steps, hgates, hprogram, hsize, hbig, hlittle, hrun⟩
  · rw [hrun, RegisterCircuit.statevector, run_eq_runBits hlittle]
  · rw [Circuit.statevector_eq hgates]
    exact Record.exists_statevector_or_error hprogram

/-- A register that the last gate makes larger, with a qubit that no gate acts on. -/
theorem register_import_is_exact_gap :
    RegisterCircuit.ofCircuit ⟨["H(0)", "RZ(PI/2)(1)", "CX(0, 3)"]⟩ =
        .ok ⟨4, 0, [⟨.h, [3]⟩, ⟨.rz (Scalar.pi / Scalar.two), [2]⟩, ⟨.cx, [3, 0]⟩]⟩ ∧
      RegisterCircuit.statevector
          ⟨4, 0, [⟨.h, [3]⟩, ⟨.rz (Scalar.pi / Scalar.two), [2]⟩, ⟨.cx, [3, 0]⟩]⟩ =
        Circuit.statevector ⟨["H(0)", "RZ(PI/2)(1)", "CX(0, 3)"]⟩ := by
  have h : RegisterCircuit.ofCircuit ⟨["H(0)", "RZ(PI/2)(1)", "CX(0, 3)"]⟩ =
      .ok ⟨4, 0, [⟨.h, [3]⟩, ⟨.rz (Scalar.pi / Scalar.two), [2]⟩, ⟨.cx, [3, 0]⟩]⟩ := by
    decide +kernel
  exact ⟨h, (register_import_is_exact.2 _ _ h).1⟩

end CircuitExchange
