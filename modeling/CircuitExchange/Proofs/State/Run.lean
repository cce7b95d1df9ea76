import Mathlib
import CircuitExchange.Proofs.Order.Scheduling
import CircuitExchange.Proofs.State.Exact

/-!
Runs of programs. A step succeeds on every state of its size or on none, and over exact numbers
neighbouring steps on disjoint qubits may be exchanged.

* `apply_comm`: operations on disjoint bits commute.
* `runStep_eq_ok_iff`: when a step succeeds, and with which state.
* `run_eq_ok_iff`: programs that fit into their register run to the end, and no others.
* `run_of_reordered`: reordered programs have the same final state.
-/

namespace CircuitExchange

/-! ### Single operations -/

/-- **Operations on disjoint bits commute** on every state, or neither order succeeds. -/
theorem apply_comm {op op' : Operation ℝ} {bits bits' : List Nat} (h : bits.Disjoint bits')
    (s : Statevector ℝ) :
    (s.apply op bits >>= (·.apply op' bits')).toOption =
      (s.apply op' bits' >>= (·.apply op bits)).toOption := by
  refine toOption_bind_comm (f := (·.apply op bits)) (g := (·.apply op' bits'))
    (F := (·.applyUnchecked op bits)) (G := (·.applyUnchecked op' bits'))
    (fun _ _ => apply_eq_ok_iff) (fun _ _ => apply_eq_ok_iff) Iff.rfl Iff.rfl
    fun hfits hfits' => Statevector.ext_wave rfl fun k _ => ?_
  rw [Statevector.wave_applyUnchecked (s := s.applyUnchecked op bits) hfits',
    Statevector.wave_applyUnchecked (s := s.applyUnchecked op' bits') hfits,
    Statevector.wave_applyUnchecked hfits, Statevector.wave_applyUnchecked hfits',
    Operation.act_comm h]

/-! ### Steps -/

/-- The position of a qubit of a register of `n` qubits that has it. -/
def BitOrder.position (order : BitOrder) (n : Nat) (q : Qubit) : Nat :=
  match order with
  | .bigEndian => n - 1 - q.toNat
  | .littleEndian => q.toNat

theorem BitOrder.position_lt {order : BitOrder} {n : Nat} {q : Qubit} (h : q.toNat < n) :
    order.position n q < n := by
  cases order
  · simp only [position]
    omega
  · exact h

theorem BitOrder.position_inj {order : BitOrder} {n : Nat} {q q' : Qubit} (h : q.toNat < n)
    (h' : q'.toNat < n) (heq : order.position n q = order.position n q') : q = q' := by
  apply UInt32.toNat_inj.1
  cases order <;> simp only [position] at heq <;> omega

/-- The operation has as many qubits as it needs, all different and within the register. -/
structure FitsRegister {α : Type} (step : Operation α × List Qubit) (n : Nat) : Prop where
  length : step.2.length = step.1.arity
  nodup : step.2.Nodup
  lt : ∀ q ∈ step.2, q.toNat < n

section Steps

variable {α : Type} {order : BitOrder} {n : Nat} {qs qs' : List Qubit}

theorem bit_eq_ok_iff {q : Qubit} {position : Nat} :
    (order.bit q n : Except (RunError α) Nat) = .ok position ↔
      q.toNat < n ∧ order.position n q = position := by
  unfold BitOrder.bit
  by_cases h : n ≤ q.toNat
  · rw [if_pos h]
    exact ⟨nofun, fun heq => absurd h (Nat.not_le.2 heq.1)⟩
  · rw [if_neg h]
    cases order
    all_goals
      constructor
      · intro heq
        exact ⟨Nat.not_le.1 h, Except.ok.inj heq⟩
      · rintro ⟨-, rfl⟩
        rfl

theorem mapM_bit_eq_ok_iff {positions : List Nat} :
    (qs.mapM (fun q => order.bit q n) : Except (RunError α) (List Nat)) = .ok positions ↔
      (∀ q ∈ qs, q.toNat < n) ∧ qs.map (order.position n) = positions :=
  mapM_eq_ok_iff_map fun _ _ => bit_eq_ok_iff

theorem disjoint_map_position (order : BitOrder) (h : qs.Disjoint qs') (hlt : ∀ q ∈ qs, q.toNat < n)
    (hlt' : ∀ q ∈ qs', q.toNat < n) :
    (qs.map (order.position n)).Disjoint (qs'.map (order.position n)) := by
  intro p hp hp'
  obtain ⟨q, hq, rfl⟩ := List.mem_map.1 hp
  obtain ⟨q', hq', heq⟩ := List.mem_map.1 hp'
  obtain rfl := BitOrder.position_inj (hlt' q' hq') (hlt q hq) heq
  exact h hq hq'

end Steps

section Run

variable {α : Type} [Scalar α] {order : BitOrder} {s t : Statevector α}
  {step : Operation α × List Qubit}

/-- The state after a step that fits. -/
def BitOrder.applyTo (order : BitOrder) (s : Statevector α) (step : Operation α × List Qubit) :
    Statevector α :=
  s.applyUnchecked step.1 (step.2.map (order.position s.qubitCount))

omit [Scalar α] in
theorem FitsRegister.fits {n : Nat} (h : FitsRegister step n) :
    step.1.Fits (step.2.map (order.position n)) n where
  length := by rw [List.length_map, h.length]
  nodup := h.nodup.map_on fun q hq q' hq' heq => BitOrder.position_inj (h.lt q hq) (h.lt q' hq') heq
  lt := by
    intro bit hbit
    obtain ⟨q, hq, rfl⟩ := List.mem_map.1 hbit
    exact BitOrder.position_lt (h.lt q hq)

/-- A step succeeds exactly if it fits into the register. -/
theorem runStep_eq_ok_iff :
    runStep order s step = .ok t ↔ FitsRegister step s.qubitCount ∧ order.applyTo s step = t := by
  constructor
  · intro h
    obtain ⟨bits, hbits, h⟩ := bind_eq_ok h
    obtain ⟨hlt, rfl⟩ := mapM_bit_eq_ok_iff.1 hbits
    obtain ⟨hfits, rfl⟩ := apply_eq_ok_iff.1 h
    refine ⟨⟨?_, List.Nodup.of_map _ hfits.nodup, hlt⟩, rfl⟩
    rw [← hfits.length, List.length_map]
  · rintro ⟨hfits, rfl⟩
    rw [runStep, mapM_bit_eq_ok_iff.2 ⟨hfits.lt, rfl⟩]
    exact apply_eq_ok_iff.2 ⟨hfits.fits, rfl⟩

theorem qubitCount_foldl (order : BitOrder) (program : Program α) (s : Statevector α) :
    (program.foldl order.applyTo s).qubitCount = s.qubitCount := by
  induction program generalizing s with
  | nil => rfl
  | cons step program ih => exact ih _

/-- Steps succeed in turn exactly if all of them fit. -/
theorem foldlM_runStep_eq_ok_iff {program : Program α} :
    program.foldlM (runStep order) s = .ok t ↔
      (∀ step ∈ program, FitsRegister step s.qubitCount) ∧ program.foldl order.applyTo s = t := by
  induction program generalizing s with
  | nil =>
    rw [List.foldlM_nil, List.foldl_nil]
    constructor
    · intro h
      exact ⟨nofun, Except.ok.inj h⟩
    · rintro ⟨-, rfl⟩
      rfl
  | cons step program ih =>
    rw [List.foldlM_cons, List.foldl_cons, List.forall_mem_cons]
    constructor
    · intro h
      obtain ⟨u, hu, h⟩ := bind_eq_ok h
      obtain ⟨hfits, rfl⟩ := runStep_eq_ok_iff.1 hu
      obtain ⟨hall, heq⟩ := ih.1 h
      exact ⟨⟨hfits, hall⟩, heq⟩
    · rintro ⟨⟨hfits, hall⟩, heq⟩
      rw [runStep_eq_ok_iff.2 ⟨hfits, rfl⟩]
      exact ih.2 ⟨hall, heq⟩

/-- **A program runs to the end exactly if it fits into its register**, and the register is not too
large. -/
theorem run_eq_ok_iff {n : Nat} {program : Program α} :
    run n order program = .ok t ↔
      n ≤ maxQubits ∧ (∀ step ∈ program, FitsRegister step n) ∧
        program.foldl order.applyTo (.zero n) = t := by
  rw [run, Statevector.new]
  by_cases hn : maxQubits < n
  · rw [if_pos hn]
    exact ⟨nofun, fun h => absurd h.1 (Nat.not_le.2 hn)⟩
  · rw [if_neg hn]
    refine foldlM_runStep_eq_ok_iff.trans ⟨fun h => ⟨Nat.not_lt.1 hn, h⟩, And.right⟩

theorem exists_run (order : BitOrder) {n : Nat} {program : Program α} (hn : n ≤ maxQubits)
    (h : ∀ step ∈ program, FitsRegister step n) :
    run n order program = .ok (program.foldl order.applyTo (.zero n)) :=
  run_eq_ok_iff.2 ⟨hn, h, rfl⟩

/-- No program runs on a register that is too large. -/
theorem run_eq_error (order : BitOrder) {n : Nat} (program : Program α) (hn : maxQubits < n) :
    run n order program = .error (.tooManyQubits n) := by
  rw [run, Statevector.new, if_pos hn]
  rfl

end Run

/-! ### Exchanging steps -/

section Exact

variable {order : BitOrder} {step step' : Operation ℝ × List Qubit}

/-- A step acts by the matrix of its operation. -/
theorem wave_applyTo {s : Statevector ℝ} (h : FitsRegister step s.qubitCount) :
    (order.applyTo s step).wave =
      step.1.act (step.2.map (order.position s.qubitCount)) s.wave :=
  Statevector.wave_applyUnchecked h.fits

/-- Operations on the same qubits act by their matrices in turn. -/
theorem wave_foldl {order : BitOrder} {ops : List (Operation ℝ)} {qubits : List Qubit}
    {s : Statevector ℝ} (h : ∀ op ∈ ops, FitsRegister (op, qubits) s.qubitCount) :
    ((ops.map (·, qubits)).foldl order.applyTo s).wave =
      ops.foldl (fun v op => op.act (qubits.map (order.position s.qubitCount)) v) s.wave := by
  induction ops generalizing s with
  | nil => rfl
  | cons op ops ih =>
    obtain ⟨hop, hops⟩ := List.forall_mem_cons.1 h
    rw [List.map_cons, List.foldl_cons, List.foldl_cons,
      ih (s := order.applyTo s (op, qubits)) hops, wave_applyTo hop]
    rfl

/-- Steps on disjoint qubits commute on every state, or neither order succeeds. -/
theorem runStep_comm (order : BitOrder) (h : Apart Prod.snd step step') (s : Statevector ℝ) :
    (runStep order s step >>= (runStep order · step')).toOption =
      (runStep order s step' >>= (runStep order · step)).toOption := by
  refine toOption_bind_comm (f := (runStep order · step)) (g := (runStep order · step'))
    (F := (order.applyTo · step)) (G := (order.applyTo · step'))
    (fun _ _ => runStep_eq_ok_iff) (fun _ _ => runStep_eq_ok_iff) Iff.rfl Iff.rfl
    fun hfits hfits' => Statevector.ext_wave rfl fun k _ => ?_
  have hdisjoint := disjoint_map_position order h hfits.lt hfits'.lt
  rw [wave_applyTo (s := order.applyTo s step) hfits', wave_applyTo hfits,
    wave_applyTo (s := order.applyTo s step') hfits, wave_applyTo hfits']
  exact congrFun (Operation.act_comm hdisjoint s.wave).symm k

/-- **Reordered programs have the same outcome**, from every state. -/
theorem toOption_foldlM_of_reordered {program program' : Program ℝ}
    (h : Reordered (Apart Prod.snd) program program') (s : Statevector ℝ) :
    (program.foldlM (runStep order) s).toOption = (program'.foldlM (runStep order) s).toOption := by
  induction h generalizing s with
  | nil => rfl
  | cons step _ ih =>
    rw [List.foldlM_cons, List.foldlM_cons, toOption_bind, toOption_bind]
    exact congrArg _ (funext ih)
  | @swap step step' program hapart =>
    have hcomm := runStep_comm order hapart s
    rw [toOption_bind, toOption_bind] at hcomm
    simp only [List.foldlM_cons, toOption_bind, ← Option.bind_assoc]
    rw [hcomm]
  | trans _ _ ih ih' => exact (ih s).trans (ih' s)

/-- Reordered programs have the same final state. -/
theorem run_of_reordered {n : Nat} {program program' : Program ℝ}
    (h : Reordered (Apart Prod.snd) program program') {v : Statevector ℝ}
    (hrun : run n order program = .ok v) : run n order program' = .ok v := by
  obtain ⟨s, hs, hrun⟩ := bind_eq_ok hrun
  rw [run, hs]
  apply toOption_eq_some
  exact (toOption_foldlM_of_reordered h s).symm.trans (congrArg Except.toOption hrun)

end Exact

end CircuitExchange
