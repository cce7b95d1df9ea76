import Mathlib
import CircuitExchange.Proofs.State.Run

/-!
Renumbering the bits of a register. An operation does not look at the numbers of the bits it acts
on, although the sweeps visit the indices in their order: at renumbered bits it takes the renumbered
state to the renumbered result, by the same arithmetic on the same amplitudes.

* `renumber`: the index with its bits moved by a permutation.
* `Statevector.renumbered`: the state with its amplitudes at the renumbered indices.
* `Statevector.applyUnchecked_renumbered`: operations commute with renumbering.
* `foldl_applyTo_renumbered`: so do programs, from one end of the index to the other.
* `engine_ignores_bit_numbering`: what this means for single operations and for whole runs.
-/

namespace CircuitExchange

/-! ### Indices -/

section Indices

variable {n k l : Nat} {π : Equiv.Perm (Fin n)}

/-- The index that has at every renumbered position the bit that `k` has at the position. -/
def renumber (π : Equiv.Perm (Fin n)) (k : Nat) : Nat :=
  Nat.ofBits fun bit => k.testBit (π.symm bit)

theorem renumber_lt (π : Equiv.Perm (Fin n)) (k : Nat) : renumber π k < 1 <<< n := by
  rw [Nat.one_shiftLeft]
  exact Nat.ofBits_lt_two_pow _

theorem testBit_renumber (π : Equiv.Perm (Fin n)) (k : Nat) (bit : Fin n) :
    (renumber π k).testBit bit = k.testBit (π.symm bit) :=
  Nat.testBit_ofBits_lt _ bit bit.isLt

theorem testBit_renumber_apply (π : Equiv.Perm (Fin n)) (k : Nat) (bit : Fin n) :
    (renumber π k).testBit (π bit) = k.testBit bit := by
  rw [testBit_renumber, Equiv.symm_apply_apply]

/-- Indices of a register are equal if they have the same bits. -/
theorem eq_of_testBit_fin (hk : k < 1 <<< n) (hl : l < 1 <<< n)
    (h : ∀ bit : Fin n, k.testBit bit = l.testBit bit) : k = l := by
  rw [Nat.one_shiftLeft] at hk hl
  apply Nat.eq_of_testBit_eq
  intro bit
  by_cases hbit : bit < n
  · exact h ⟨bit, hbit⟩
  · have hpow : 2 ^ n ≤ 2 ^ bit := Nat.pow_le_pow_right (by decide) (Nat.not_lt.1 hbit)
    rw [Nat.testBit_lt_two_pow (hk.trans_le hpow), Nat.testBit_lt_two_pow (hl.trans_le hpow)]

/-- Renumbering back undoes renumbering. -/
theorem renumber_symm_renumber (hk : k < 1 <<< n) : renumber π.symm (renumber π k) = k := by
  refine eq_of_testBit_fin (renumber_lt ..) hk fun bit => ?_
  rw [testBit_renumber, Equiv.symm_symm, testBit_renumber_apply]

theorem renumber_xor (π : Equiv.Perm (Fin n)) (k l : Nat) :
    renumber π (k ^^^ l) = renumber π k ^^^ renumber π l := by
  refine eq_of_testBit_fin (renumber_lt ..) (xor_lt_shift (renumber_lt ..) (renumber_lt ..))
    fun bit => ?_
  rw [Nat.testBit_xor, testBit_renumber, testBit_renumber, testBit_renumber, Nat.testBit_xor]

theorem renumber_shift (π : Equiv.Perm (Fin n)) (bit : Fin n) :
    renumber π (1 <<< (bit : Nat)) = 1 <<< (π bit : Nat) := by
  refine eq_of_testBit_fin (renumber_lt ..) (shift_lt_shift (π bit).isLt) fun b => ?_
  rw [testBit_renumber, testBit_one_shiftLeft, testBit_one_shiftLeft, decide_eq_decide,
    Fin.val_inj, Fin.val_inj, Equiv.eq_symm_apply]

theorem renumber_zero (π : Equiv.Perm (Fin n)) : renumber π 0 = 0 := by
  refine eq_of_testBit_fin (renumber_lt ..) (by simp [Nat.one_shiftLeft]) fun bit => ?_
  rw [testBit_renumber, Nat.zero_testBit, Nat.zero_testBit]

end Indices

/-! ### States -/

section States

variable {α : Type} [Scalar α] {n k : Nat} {π : Equiv.Perm (Fin n)} {s : Statevector α}
  {op : Operation α} {bits : List (Fin n)}

/-- The state with every amplitude moved to the renumbered index. -/
def Statevector.renumbered (π : Equiv.Perm (Fin n)) (s : Statevector α) : Statevector α where
  qubitCount := n
  amplitudes := Array.ofFn fun k : Fin (1 <<< n) => s.amplitudes.getD (renumber π.symm k) 0
  size_eq := Array.size_ofFn

theorem Statevector.getD_renumbered (hk : k < 1 <<< n) :
    (s.renumbered π).amplitudes.getD k 0 = s.amplitudes.getD (renumber π.symm k) 0 := by
  rw [Array.getD_eq_getD_getElem?, renumbered, Array.getElem?_ofFn, dif_pos hk, Option.getD_some]

theorem Statevector.getD_renumbered_renumber (hk : k < 1 <<< n) :
    (s.renumbered π).amplitudes.getD (renumber π k) 0 = s.amplitudes.getD k 0 := by
  rw [getD_renumbered (renumber_lt ..), renumber_symm_renumber hk]

omit [Scalar α] in
/-- Bits fit at their new positions if they fit at the old ones. -/
theorem Operation.Fits.renumber (π : Equiv.Perm (Fin n)) (h : op.Fits (bits.map (↑)) n) :
    op.Fits (bits.map fun bit => (π bit : Nat)) n where
  length := by rw [List.length_map, ← h.length, List.length_map]
  nodup := (List.Nodup.of_map _ h.nodup).map (Fin.val_injective.comp π.injective)
  lt := by
    intro position hposition
    obtain ⟨bit, -, rfl⟩ := List.mem_map.1 hposition
    exact (π bit).isLt

/-- **Operations commute with renumbering**, whatever the arithmetic of the amplitudes. -/
theorem Statevector.applyUnchecked_renumbered (π : Equiv.Perm (Fin n)) (hs : s.qubitCount = n)
    (h : op.Fits (bits.map (↑)) n) :
    (s.renumbered π).applyUnchecked op (bits.map fun bit => (π bit : Nat)) =
      (s.applyUnchecked op (bits.map (↑))).renumbered π := by
  refine ext_getD rfl fun k (hk : k < 1 <<< n) => ?_
  have hsize : s.amplitudes.size = 1 <<< n := by rw [s.size_eq, hs]
  have hmask : renumber π.symm (op.mask (bits.map fun bit => (π bit : Nat))) =
      op.mask (bits.map (↑)) := by
    refine Operation.mask_map _ (renumber_xor _) fun bit _ => ?_
    rw [renumber_shift, Equiv.symm_apply_apply]
  have hbits : ∀ bit ∈ bits, k.testBit (π bit) = (renumber π.symm k).testBit bit := fun bit _ => by
    rw [testBit_renumber, Equiv.symm_symm]
  rw [getD_renumbered hk]
  calc (kernel op (bits.map fun bit => (π bit : Nat)) (s.renumbered π).amplitudes).getD k 0
    _ = op.entry (bits.map fun bit => (π bit : Nat)) k ((s.renumbered π).amplitudes.getD k 0)
          ((s.renumbered π).amplitudes.getD
            (k ^^^ op.mask (bits.map fun bit => (π bit : Nat))) 0) :=
        getD_kernel (h.renumber π) (s.renumbered π).size_eq hk
    _ = op.entry (bits.map (↑)) (renumber π.symm k) (s.amplitudes.getD (renumber π.symm k) 0)
          (s.amplitudes.getD (renumber π.symm k ^^^ op.mask (bits.map (↑))) 0) := by
        rw [getD_renumbered hk, getD_renumbered (xor_lt_shift hk (h.renumber π).mask_lt),
          renumber_xor, hmask, Operation.entry_map_congr hbits]
    _ = (kernel op (bits.map (↑)) s.amplitudes).getD (renumber π.symm k) 0 :=
        (getD_kernel h hsize (renumber_lt ..)).symm

end States

/-! ### Runs -/

section Runs

variable {α : Type} [Scalar α] {n : Nat} {s : Statevector α}

/-- The state in which every qubit is zero is the same in every numbering. -/
theorem Statevector.zero_renumbered (π : Equiv.Perm (Fin n)) :
    (zero n : Statevector α).renumbered π = zero n := by
  refine ext_getD rfl fun k (hk : k < 1 <<< n) => ?_
  have hiff : renumber π.symm k = 0 ↔ k = 0 := by
    constructor
    · intro h
      rw [← renumber_symm_renumber (π := π.symm) hk, h, renumber_zero]
    · rintro rfl
      exact renumber_zero _
  rw [getD_renumbered hk, getD_zero, getD_zero, if_congr hiff rfl rfl]

omit [Scalar α] in
/-- The qubits of a step that fits, as bits of the register. -/
theorem FitsRegister.exists_bits {step : Operation α × List Qubit} (h : FitsRegister step n) :
    ∃ bits : List (Fin n), step.2.map (BitOrder.littleEndian.position n) = bits.map (↑) ∧
      step.2.map (BitOrder.bigEndian.position n) =
        bits.map fun bit => (Fin.revPerm bit : Nat) := by
  refine ⟨step.2.pmap (fun q hq => ⟨q.toNat, hq⟩) h.lt, ?_, ?_⟩
  all_goals
    rw [List.map_pmap, ← List.pmap_eq_map h.lt]
    refine List.pmap_congr_left _ fun q _ hq _ => ?_
  · rfl
  · rw [Fin.revPerm_apply, Fin.val_rev]
    simp only [BitOrder.position]
    omega

theorem BitOrder.applyTo_renumbered {step : Operation α × List Qubit} (hs : s.qubitCount = n)
    (h : FitsRegister step n) :
    bigEndian.applyTo (s.renumbered (n := n) Fin.revPerm) step =
      (littleEndian.applyTo s step).renumbered (n := n) Fin.revPerm := by
  obtain ⟨bits, hlittle, hbig⟩ := h.exists_bits
  have hfits : step.1.Fits (bits.map (↑)) n := hlittle ▸ h.fits
  have happly := Statevector.applyUnchecked_renumbered (s := s) Fin.revPerm hs hfits
  rw [← hbig, ← hlittle] at happly
  subst hs
  exact happly

/-- **A program runs from one end of the index as from the other**, on reversed states. -/
theorem foldl_applyTo_renumbered {program : Program α} (hs : s.qubitCount = n)
    (h : ∀ step ∈ program, FitsRegister step n) :
    program.foldl BitOrder.bigEndian.applyTo (s.renumbered (n := n) Fin.revPerm) =
      (program.foldl BitOrder.littleEndian.applyTo s).renumbered (n := n) Fin.revPerm := by
  induction program generalizing s with
  | nil => rfl
  | cons step program ih =>
    obtain ⟨hstep, hprogram⟩ := List.forall_mem_cons.1 h
    rw [List.foldl_cons, List.foldl_cons, BitOrder.applyTo_renumbered hs hstep]
    exact ih (s := BitOrder.littleEndian.applyTo s step) hs hprogram

end Runs

/-- **The numbering of the bits does not matter**, whatever the arithmetic of the amplitudes. An
operation at renumbered bits takes the renumbered state to the renumbered result. So a program runs
to the end in both orders of the qubits or in neither, and the amplitude that an index has in one
order is that of the index with its bits reversed in the other. -/
theorem engine_ignores_bit_numbering {α : Type} [Scalar α] (n : Nat) :
    (∀ (π : Equiv.Perm (Fin n)) (k : Nat), renumber π k < 2 ^ n ∧
      ∀ bit : Fin n, (renumber π k).testBit (π bit) = k.testBit bit) ∧
    (∀ (π : Equiv.Perm (Fin n)) (s : Statevector α), s.qubitCount = n →
      (s.renumbered π).qubitCount = n ∧
      (∀ k < 2 ^ n, (s.renumbered π).amplitudes.getD (renumber π k) 0 = s.amplitudes.getD k 0) ∧
      ∀ (op : Operation α) (bits : List (Fin n)), op.Fits (bits.map (↑)) n →
        ∃ t, s.apply op (bits.map (↑)) = .ok t ∧
          (s.renumbered π).apply op (bits.map fun bit => (π bit : Nat)) = .ok (t.renumbered π)) ∧
    ∀ program : Program α,
      ((∃ v, run n .bigEndian program = .ok v) ↔ ∃ w, run n .littleEndian program = .ok w) ∧
      ∀ v w, run n .bigEndian program = .ok v → run n .littleEndian program = .ok w →
        v.qubitCount = n ∧ w.qubitCount = n ∧
        ∀ i < 2 ^ n, v.amplitudes.getD (renumber (n := n) Fin.revPerm i) 0 =
          w.amplitudes.getD i 0 := by
  simp only [← Nat.one_shiftLeft]
  refine ⟨fun π k => ⟨renumber_lt π k, testBit_renumber_apply π k⟩, fun π s hs =>
    ⟨rfl, fun k hk => Statevector.getD_renumbered_renumber hk, fun op bits hfits => ?_⟩,
    fun program => ⟨?_, fun v w hv hw => ?_⟩⟩
  · refine ⟨_, apply_eq_ok_iff.2 ⟨hs ▸ hfits, rfl⟩, apply_eq_ok_iff.2 ⟨hfits.renumber π, ?_⟩⟩
    exact Statevector.applyUnchecked_renumbered π hs hfits
  · simp only [run_eq_ok_iff, exists_and_left, exists_eq']
  · obtain ⟨-, hfits, rfl⟩ := run_eq_ok_iff.1 hv
    obtain ⟨-, -, rfl⟩ := run_eq_ok_iff.1 hw
    have hfold := foldl_applyTo_renumbered (n := n) (s := Statevector.zero n) rfl hfits
    rw [Statevector.zero_renumbered] at hfold
    refine ⟨by rw [hfold]; rfl, qubitCount_foldl .., fun i hi => ?_⟩
    rw [hfold, Statevector.getD_renumbered_renumber hi]

/-- Three bits moved around in a circle, and a program of two steps in both orders. -/
theorem engine_ignores_bit_numbering_three :
    (∃ t, (Statevector.zero 3 : Statevector Float).apply .cx [0, 2] = .ok t ∧
      ((Statevector.zero 3 : Statevector Float).renumbered (finRotate 3)).apply .cx [1, 0] =
        .ok (t.renumbered (finRotate 3))) ∧
    ∃ v w : Statevector Float,
      run 3 .bigEndian [(.h, [0]), (.cx, [0, 2])] = .ok v ∧
      run 3 .littleEndian [(.h, [0]), (.cx, [0, 2])] = .ok w ∧
      v.amplitudes.getD 4 0 = w.amplitudes.getD 1 0 := by
  obtain ⟨-, hstates, hprograms⟩ := engine_ignores_bit_numbering (α := Float) 3
  obtain ⟨-, -, hops⟩ := hstates (finRotate 3) (.zero 3) rfl
  have hcx : (Operation.cx : Operation Float).Fits (([0, 2] : List (Fin 3)).map (↑)) 3 :=
    ⟨rfl, by decide, by decide⟩
  obtain ⟨hiff, hamplitudes⟩ := hprograms [(.h, [0]), (.cx, [0, 2])]
  have hfits : ∀ step ∈ ([(.h, [0]), (.cx, [0, 2])] : Program Float), FitsRegister step 3 := by
    simp only [List.forall_mem_cons]
    exact ⟨⟨rfl, by decide, by simp⟩, ⟨rfl, by decide, by simp⟩, nofun⟩
  have hv := exists_run .bigEndian (by decide) hfits
  obtain ⟨w, hw⟩ := hiff.1 ⟨_, hv⟩
  obtain ⟨-, -, hamplitude⟩ := hamplitudes _ w hv hw
  exact ⟨hops .cx [0, 2] hcx, _, w, hv, hw, hamplitude 1 (by decide)⟩

end CircuitExchange
