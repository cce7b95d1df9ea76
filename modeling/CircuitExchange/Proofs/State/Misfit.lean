import Mathlib
import CircuitExchange.Proofs.State.Run

/-!
Programs that cannot be run. A run stops at the first step that does not fit into the register, and
its error says what is wrong with that step. Qubits are looked up before the operation is applied,
and only the lookup knows them by their own numbers: whatever is found later is known by the bits of
the index.

* `StepFault`: what is wrong with a step, and the error that says so.
* `StepFault.runStep`: the step ends with this error.
* `run_stops_at_first_misfit`: which programs cannot be run, and for what reason.
* `repeated_qubit_misnamed`: a repeated qubit is reported by the number of its bit.
-/

namespace CircuitExchange

section Faults

variable {α : Type}

/-- What is wrong with the qubits of a step in a register of `n` qubits. A qubit outside the
register comes before a wrong number of qubits, and that before a repeated qubit; of several such
qubits it is the first one. A repeated qubit is reported by its position in the index. -/
inductive StepFault (order : BitOrder) (n : Nat) (step : Operation α × List Qubit) :
    RunError α → Prop
  | outOfRange {earlier later : List Qubit} {q : Qubit} (qubits : step.2 = earlier ++ q :: later)
      (inRange : ∀ p ∈ earlier, p.toNat < n) (beyond : n ≤ q.toNat) :
      StepFault order n step (.outOfRange q.toNat n)
  | arity (inRange : ∀ p ∈ step.2, p.toNat < n) (length : step.2.length ≠ step.1.arity) :
      StepFault order n step (.arity step.1 step.2.length)
  | duplicate {earlier later : List Qubit} {q : Qubit} (inRange : ∀ p ∈ step.2, p.toNat < n)
      (length : step.2.length = step.1.arity) (qubits : step.2 = earlier ++ q :: later)
      (nodup : earlier.Nodup) (repeated : q ∈ earlier) :
      StepFault order n step (.duplicate step.1 (order.position n q))

variable {order : BitOrder} {n : Nat} {step : Operation α × List Qubit}

/-- A list with repeated entries has a first one that repeats an earlier one. -/
theorem exists_first_repeated {β : Type} {as : List β} (h : ¬ as.Nodup) :
    ∃ earlier a later, as = earlier ++ a :: later ∧ earlier.Nodup ∧ a ∈ earlier := by
  induction as using List.reverseRecOn with
  | nil => exact absurd .nil h
  | append_singleton as a ih =>
    by_cases hnodup : as.Nodup
    · refine ⟨as, a, [], rfl, hnodup, ?_⟩
      by_contra hmem
      exact h (List.concat_eq_append ▸ hnodup.concat hmem)
    · obtain ⟨earlier, b, later, rfl, hearlier, hb⟩ := ih hnodup
      exact ⟨earlier, b, later ++ [a], by simp, hearlier, hb⟩

theorem two_le_count {β : Type} [BEq β] [LawfulBEq β] {as earlier later : List β} {a : β}
    (h : as = earlier ++ a :: later) (ha : a ∈ earlier) : 2 ≤ as.count a := by
  have hearlier := List.count_pos_iff.2 ha
  rw [h, List.count_append, List.count_cons_self]
  omega

/-- The qubit of an error about the range is a qubit of the step. -/
theorem StepFault.of_outOfRange {q m : Nat} (h : StepFault order n step (.outOfRange q m)) :
    m = n ∧ n ≤ q ∧ ∃ p ∈ step.2, p.toNat = q := by
  cases h with
  | outOfRange hqubits _ hq =>
    exact ⟨rfl, hq, _, hqubits ▸ List.mem_append_right _ (List.mem_cons_self ..), rfl⟩

/-- The bit of an error about repetition is that of a qubit that the step has twice. -/
theorem StepFault.of_duplicate {op : Operation α} {bit : Nat}
    (h : StepFault order n step (.duplicate op bit)) :
    op = step.1 ∧ ∃ q, 2 ≤ step.2.count q ∧ q.toNat < n ∧ bit = order.position n q := by
  cases h with
  | duplicate hrange _ hqubits _ hq =>
    have hmem := hqubits ▸ List.mem_append_left _ hq
    exact ⟨rfl, _, two_le_count hqubits hq, hrange _ hmem, rfl⟩

/-- **A step that does not fit has a fault.** -/
theorem exists_stepFault (order : BitOrder) (h : ¬ FitsRegister step n) :
    ∃ e, StepFault order n step e := by
  by_cases hrange : ∀ q ∈ step.2, q.toNat < n
  · by_cases hlength : step.2.length = step.1.arity
    · have hrepeated : ¬ step.2.Nodup := fun hnodup => h ⟨hlength, hnodup, hrange⟩
      obtain ⟨earlier, q, later, hqubits, hnodup, hq⟩ := exists_first_repeated hrepeated
      exact ⟨_, .duplicate hrange hlength hqubits hnodup hq⟩
    · exact ⟨_, .arity hrange hlength⟩
  · obtain ⟨earlier, q, later, hqubits, hearlier, hq⟩ := exists_first_not hrange
    exact ⟨_, .outOfRange hqubits hearlier (Nat.not_lt.1 hq)⟩

/-- Bits within the register fail the check at the first one that is repeated. -/
theorem checkBits_eq_duplicate {op : Operation α} {seen earlier later : List Nat} {bit : Nat}
    (hlt : ∀ b ∈ earlier, b < n) (hnodup : (seen ++ earlier).Nodup) (hbit : bit < n)
    (hmem : bit ∈ seen ++ earlier) :
    Statevector.checkBits op n seen (earlier ++ bit :: later) = .error (.duplicate op bit) := by
  induction earlier generalizing seen with
  | nil =>
    rw [List.append_nil] at hmem
    rw [List.nil_append, Statevector.checkBits, if_neg (Nat.not_le.2 hbit),
      if_pos (List.contains_iff_mem.2 hmem)]
  | cons b earlier ih =>
    obtain ⟨hb, hearlier⟩ := List.forall_mem_cons.1 hlt
    have hfresh : b ∉ seen := fun hseen =>
      (List.nodup_append.1 hnodup).2.2 b hseen b (List.mem_cons_self ..) rfl
    rw [List.append_cons] at hnodup hmem
    rw [List.cons_append, Statevector.checkBits, if_neg (Nat.not_le.2 hb),
      if_neg (by simpa using hfresh)]
    exact ih hearlier hnodup hmem

variable [Scalar α] {s : Statevector α} {e : RunError α}

/-- **A step ends with the error of its fault.** -/
theorem StepFault.runStep (h : StepFault order s.qubitCount step e) :
    runStep order s step = .error e := by
  obtain ⟨op, qubits⟩ := step
  cases h with
  | @outOfRange earlier later q hqubits hearlier hq =>
    obtain rfl : qubits = _ := hqubits
    have hlookup : (earlier ++ q :: later).mapM (order.bit · s.qubitCount) =
        (.error (.outOfRange q.toNat s.qubitCount) : Except (RunError α) (List Nat)) :=
      mapM_append_eq_error (fun p hp => ⟨_, bit_eq_ok_iff.2 ⟨hearlier p hp, rfl⟩⟩) (if_pos hq)
    rw [CircuitExchange.runStep, hlookup]
    rfl
  | arity hrange hlength =>
    have hbits : (qubits.map (order.position s.qubitCount)).length ≠ op.arity := by
      rwa [List.length_map]
    rw [CircuitExchange.runStep, mapM_bit_eq_ok_iff.2 ⟨hrange, rfl⟩, ok_bind, Statevector.apply,
      if_pos hbits, List.length_map]
    rfl
  | @duplicate earlier later q hrange hlength hqubits hnodup hq =>
    obtain rfl : qubits = _ := hqubits
    have hbits : ((earlier ++ q :: later).map (order.position s.qubitCount)).length = op.arity := by
      rwa [List.length_map]
    have hearlier : ∀ p ∈ earlier, p.toNat < s.qubitCount := fun p hp =>
      hrange p (List.mem_append_left _ hp)
    have hcheck : Statevector.checkBits op s.qubitCount []
        ((earlier ++ q :: later).map (order.position s.qubitCount)) =
          .error (.duplicate op (order.position s.qubitCount q)) := by
      rw [List.map_append, List.map_cons]
      refine checkBits_eq_duplicate (List.forall_mem_map.2 fun p hp => ?_) ?_ ?_
        (List.mem_map_of_mem hq)
      · exact BitOrder.position_lt (hearlier p hp)
      · exact hnodup.map_on fun p hp p' hp' =>
          BitOrder.position_inj (hearlier p hp) (hearlier p' hp')
      · exact BitOrder.position_lt (hearlier q hq)
    rw [CircuitExchange.runStep, mapM_bit_eq_ok_iff.2 ⟨hrange, rfl⟩, ok_bind, Statevector.apply,
      if_neg (not_not_intro hbits), hcheck]
    rfl

/-- A run ends with the error of the first step that does not fit. -/
theorem StepFault.run {program earlier later : Program α} (hn : n ≤ maxQubits)
    (hprogram : program = earlier ++ step :: later) (hearlier : ∀ s ∈ earlier, FitsRegister s n)
    (h : StepFault order n step e) : run n order program = .error e := by
  have hcount := qubitCount_foldl order earlier (.zero n : Statevector α)
  have hfault : StepFault order (earlier.foldl order.applyTo (.zero n)).qubitCount step e := by
    rwa [hcount]
  rw [CircuitExchange.run, Statevector.new, if_neg (Nat.not_lt.2 hn), hprogram]
  exact foldlM_eq_error (foldlM_runStep_eq_ok_iff.2 ⟨hearlier, rfl⟩) hfault.runStep

/-- **A program that does not fit into its register has a first step at fault**, and its run ends
with the error of this step. -/
theorem exists_first_misfit (order : BitOrder) {program : Program α} (hn : n ≤ maxQubits)
    (h : ∃ step ∈ program, ¬ FitsRegister step n) :
    ∃ earlier step later e, program = earlier ++ step :: later ∧
      (∀ s ∈ earlier, FitsRegister s n) ∧ ¬ FitsRegister step n ∧ StepFault order n step e ∧
        run n order program = .error e := by
  obtain ⟨step, hstep, hfits⟩ := h
  obtain ⟨earlier, step, later, hprogram, hearlier, hfits⟩ :=
    exists_first_not (P := (FitsRegister · n)) fun hall => hfits (hall step hstep)
  obtain ⟨e, he⟩ := exists_stepFault order hfits
  exact ⟨earlier, step, later, e, hprogram, hearlier, hfits, he, he.run hn hprogram hearlier⟩

/-- The errors of runs on registers of admissible size. -/
theorem run_eq_error_iff {program : Program α} (hn : n ≤ maxQubits) :
    run n order program = .error e ↔
      ∃ earlier step later, program = earlier ++ step :: later ∧
        (∀ s ∈ earlier, FitsRegister s n) ∧ ¬ FitsRegister step n ∧ StepFault order n step e := by
  constructor
  · intro h
    have hmisfit : ∃ step ∈ program, ¬ FitsRegister step n := by
      by_contra hall
      push Not at hall
      rw [exists_run order hn hall] at h
      cases h
    obtain ⟨earlier, step, later, e', hprogram, hearlier, hstep, hfault, he'⟩ :=
      exists_first_misfit order hn hmisfit
    obtain rfl := Except.error.inj (h.symm.trans he')
    exact ⟨earlier, step, later, hprogram, hearlier, hstep, hfault⟩
  · rintro ⟨earlier, step, later, hprogram, hearlier, -, hfault⟩
    exact hfault.run hn hprogram hearlier

theorem exists_run_error_iff {program : Program α} :
    (∃ e, run n order program = .error e) ↔
      maxQubits < n ∨ ∃ step ∈ program, ¬ FitsRegister step n := by
  constructor
  · rintro ⟨e, he⟩
    by_contra hnone
    push Not at hnone
    rw [exists_run order hnone.1 hnone.2] at he
    cases he
  · intro h
    by_cases hn : maxQubits < n
    · exact ⟨_, run_eq_error order program hn⟩
    · obtain ⟨-, -, -, e, -, -, -, -, he⟩ :=
        exists_first_misfit order (Nat.not_lt.1 hn) (h.resolve_left hn)
      exact ⟨e, he⟩

end Faults

/-- **A run stops at the first step that does not fit.** A program cannot be run exactly if the
register is too large, which is then the error, or some step has a qubit outside the register, a
wrong number of qubits or a repeated qubit. In the latter case the error is that of the first such
step. It names a qubit of this step that is outside the register, or the position in the index of
one that occurs in it twice: in the little-endian order the qubit itself, in the big-endian order
the qubit counted from the other end. -/
theorem run_stops_at_first_misfit {α : Type} [Scalar α] (n : Nat) (order : BitOrder)
    (program : Program α) :
    ((∃ e, run n order program = .error e) ↔
      maxQubits < n ∨ ∃ step ∈ program, ¬ FitsRegister step n) ∧
    (maxQubits < n → run n order program = .error (.tooManyQubits n)) ∧
    (n ≤ maxQubits → ∀ e, run n order program = .error e ↔
      ∃ earlier step later, program = earlier ++ step :: later ∧
        (∀ s ∈ earlier, FitsRegister s n) ∧ ¬ FitsRegister step n ∧ StepFault order n step e) ∧
    ∀ (step : Operation α × List Qubit) (e : RunError α), StepFault order n step e →
      (∀ q m, e = .outOfRange q m → m = n ∧ n ≤ q ∧ ∃ p ∈ step.2, p.toNat = q) ∧
      ∀ op bit, e = .duplicate op bit → op = step.1 ∧ ∃ p, 2 ≤ step.2.count p ∧ p.toNat < n ∧
        (order = .littleEndian → bit = p.toNat) ∧
        (order = .bigEndian → bit = n - 1 - p.toNat) := by
  refine ⟨exists_run_error_iff, run_eq_error order program, fun hn e => run_eq_error_iff hn,
    fun step e h => ⟨?_, ?_⟩⟩
  · rintro q m rfl
    exact h.of_outOfRange
  · rintro op bit rfl
    obtain ⟨hop, q, hcount, hq, rfl⟩ := h.of_duplicate
    refine ⟨hop, q, hcount, hq, ?_, ?_⟩
    · rintro rfl
      rfl
    · rintro rfl
      rfl

/-- A step that repeats a qubit and has another one outside the register, after one that fits, and
a register that is too large. -/
theorem run_stops_at_first_misfit_outOfRange :
    run 3 .bigEndian ([(.h, [2]), (.ccx, [0, 0, 5]), (.cx, [1, 1])] : Program Float) =
        .error (.outOfRange 5 3) ∧
      (∃ p ∈ ([0, 0, 5] : List Qubit), p.toNat = 5) ∧
      run 25 .littleEndian ([] : Program Float) = .error (.tooManyQubits 25) := by
  have hsplit : ([0, 0, 5] : List Qubit) = [0, 0] ++ 5 :: [] := rfl
  have hfault : StepFault .bigEndian 3 ((.ccx, [0, 0, 5]) : Operation Float × List Qubit)
      (.outOfRange 5 3) := .outOfRange (q := 5) hsplit (by simp) (by decide)
  have hfits : ∀ step ∈ ([(.h, [2])] : Program Float), FitsRegister step 3 :=
    List.forall_mem_singleton.2 ⟨rfl, by decide, by simp⟩
  obtain ⟨-, -, herror, hnamed⟩ := run_stops_at_first_misfit (α := Float) 3 .bigEndian
    [(.h, [2]), (.ccx, [0, 0, 5]), (.cx, [1, 1])]
  have hrun := (herror (by decide) (.outOfRange 5 3)).2 ⟨_, _, _, rfl, hfits,
    fun h => absurd h.nodup (by decide), hfault⟩
  exact ⟨hrun, ((hnamed _ _ hfault).1 5 3 rfl).2.2,
    (run_stops_at_first_misfit 25 .littleEndian []).2.1 (by decide)⟩

/-- In the big-endian order a repeated qubit is reported by the number of its bit, which no qubit of
the step has. -/
theorem repeated_qubit_misnamed :
    run 3 .bigEndian ([(.cx, [0, 0])] : Program Float) = .error (.duplicate .cx 2) ∧
      ∀ q ∈ ([0, 0] : List Qubit), q.toNat ≠ 2 := by
  have hfault : StepFault .bigEndian 3 ((.cx, [0, 0]) : Operation Float × List Qubit)
      (.duplicate .cx 2) :=
    .duplicate (by simp) rfl List.singleton_append.symm (List.nodup_singleton 0)
      (List.mem_singleton_self 0)
  exact ⟨hfault.run (by decide) (List.nil_append _).symm nofun, by simp⟩

end CircuitExchange
