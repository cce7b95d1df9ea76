import Mathlib
import CircuitExchange.Proofs.State.Euler
import CircuitExchange.Proofs.State.Run

/-!
Evolution over exact numbers is unitary. The matrix of an operation has orthonormal columns: two of
its rows share at most the columns of an index and of its partner, so that this is a fact about
matrices of two rows. It follows that operations, and runs of any length, preserve inner products.

* `UnitaryRows`: matrices of two rows with orthonormal columns.
* `OrthonormalColumns`: what a sweep makes of an amplitude and its partner, row by row.
* `Operation.orthonormalColumns`: every operation on bits that fit.
* `Statevector.overlap`: the inner product of two states.
* `overlap_applyUnchecked`, `overlap_foldl`: operations and runs preserve inner products.
* `evolution_is_unitary`: probabilities after runs, inner products and fidelity.
-/

namespace CircuitExchange

open ComplexConjugate

/-! ### Matrices of two rows -/

/-- The columns of the matrix with the rows `p q` and `r s` are orthonormal. -/
structure UnitaryRows (p q r s : ℂ) : Prop where
  first : conj p * p + conj r * r = 1
  second : conj q * q + conj s * s = 1
  orthogonal : conj p * q + conj r * s = 0

/-- The rows and the columns may be counted from the other end. -/
theorem UnitaryRows.reverse {p q r s : ℂ} (h : UnitaryRows p q r s) : UnitaryRows s r q p where
  first := (add_comm ..).trans h.second
  second := (add_comm ..).trans h.first
  orthogonal := by
    have hconj := congrArg conj h.orthogonal
    simp only [map_add, map_mul, Complex.conj_conj, map_zero] at hconj
    linear_combination hconj

theorem conj_mul_exp (theta : ℝ) :
    conj (Complex.exp (theta * Complex.I)) * Complex.exp (theta * Complex.I) = 1 := by
  rw [Complex.conj_mul', Complex.norm_exp_ofReal_mul_I, Complex.ofReal_one, one_pow]

theorem cos_mul_add_sin_mul (theta : ℝ) :
    (Real.cos theta : ℂ) * Real.cos theta + Real.sin theta * Real.sin theta = 1 := by
  rw [← Complex.ofReal_mul, ← Complex.ofReal_mul, ← Complex.ofReal_add, ← sq, ← sq,
    Real.cos_sq_add_sin_sq, Complex.ofReal_one]

theorem unitaryRows_exchange : UnitaryRows 0 1 1 0 := by constructor <;> simp

theorem unitaryRows_mixY : UnitaryRows 0 (-Complex.I) Complex.I 0 := by constructor <;> simp

theorem unitaryRows_mixISwap : UnitaryRows 0 Complex.I Complex.I 0 := by constructor <;> simp

theorem unitaryRows_mixH :
    UnitaryRows (1 / √2 : ℝ) (1 / √2 : ℝ) (1 / √2 : ℝ) (-(1 / √2 : ℝ)) := by
  have hhalf : ((1 / √2 : ℝ) : ℂ) * (1 / √2 : ℝ) = 1 / 2 := by
    rw [← Complex.ofReal_mul, div_mul_div_comm, Real.mul_self_sqrt zero_le_two, one_mul]
    norm_num
  constructor
  · rw [Complex.conj_ofReal, hhalf]
    norm_num
  · rw [map_neg, Complex.conj_ofReal, neg_mul_neg, hhalf]
    norm_num
  · rw [Complex.conj_ofReal]
    ring

theorem unitaryRows_mixRx (theta : ℝ) :
    UnitaryRows (Real.cos (theta / 2)) (-Complex.I * Real.sin (theta / 2))
      (-Complex.I * Real.sin (theta / 2)) (Real.cos (theta / 2)) := by
  have hunit := cos_mul_add_sin_mul (theta / 2)
  constructor
  · simp only [map_mul, map_neg, Complex.conj_I, Complex.conj_ofReal]
    linear_combination hunit - Real.sin (theta / 2) * Real.sin (theta / 2) * Complex.I_mul_I
  · simp only [map_mul, map_neg, Complex.conj_I, Complex.conj_ofReal]
    linear_combination hunit - Real.sin (theta / 2) * Real.sin (theta / 2) * Complex.I_mul_I
  · simp only [map_mul, map_neg, Complex.conj_I, Complex.conj_ofReal]
    ring

theorem unitaryRows_mixRy (theta : ℝ) :
    UnitaryRows (Real.cos (theta / 2)) (-Real.sin (theta / 2)) (Real.sin (theta / 2))
      (Real.cos (theta / 2)) := by
  have hunit := cos_mul_add_sin_mul (theta / 2)
  constructor
  · simpa only [Complex.conj_ofReal] using hunit
  · simp only [map_neg, Complex.conj_ofReal]
    linear_combination hunit
  · simp only [Complex.conj_ofReal]
    ring

theorem unitaryRows_mixU (theta phi lambda : ℝ) :
    UnitaryRows (Real.cos (theta / 2))
      (-(Real.sin (theta / 2) * Complex.exp (lambda * Complex.I)))
      (Real.sin (theta / 2) * Complex.exp (phi * Complex.I))
      (Real.cos (theta / 2) * Complex.exp ((phi + lambda : ℝ) * Complex.I)) := by
  have hunit := cos_mul_add_sin_mul (theta / 2)
  have hphi := conj_mul_exp phi
  have hlambda := conj_mul_exp lambda
  have hsum : Complex.exp ((phi + lambda : ℝ) * Complex.I) =
      Complex.exp (phi * Complex.I) * Complex.exp (lambda * Complex.I) := by
    rw [← Complex.exp_add, ← add_mul, Complex.ofReal_add]
  rw [hsum]
  generalize Complex.exp (phi * Complex.I) = u at *
  generalize Complex.exp (lambda * Complex.I) = v at *
  generalize (Real.cos (theta / 2) : ℝ) = c at *
  generalize (Real.sin (theta / 2) : ℝ) = s at *
  constructor
  · simp only [map_mul, Complex.conj_ofReal]
    linear_combination hunit + s * s * hphi
  · simp only [map_mul, map_neg, Complex.conj_ofReal]
    linear_combination hunit + (s * s + c * c * (conj u * u)) * hlambda + c * c * hphi
  · simp only [map_mul, Complex.conj_ofReal]
    linear_combination s * c * v * hphi

/-! ### Columns of operations -/

/-- The columns of the matrix of a sweep are orthonormal: an index stands in its own row, and in the
row of its partner. -/
structure OrthonormalColumns (g : Nat → Amplitude ℝ → Amplitude ℝ → Amplitude ℝ) (mask : Nat) :
    Prop where
  norm : ∀ k, conj (g k 1 0).toComplex * (g k 1 0).toComplex +
    conj (g (k ^^^ mask) 0 1).toComplex * (g (k ^^^ mask) 0 1).toComplex = 1
  orthogonal : ∀ k, conj (g k 1 0).toComplex * (g k 0 1).toComplex +
    conj (g (k ^^^ mask) 0 1).toComplex * (g (k ^^^ mask) 1 0).toComplex = 0

section Columns

variable {f : Amplitude ℝ → Amplitude ℝ → Amplitude ℝ × Amplitude ℝ} {p q r s : ℂ}
  {g : Nat → Amplitude ℝ → Amplitude ℝ → Amplitude ℝ} {mask : Nat}

/-- Mixing the amplitudes of indices that differ in one bit. -/
theorem UnitaryRows.orthonormalColumns_bitEntry (h : UnitaryRows p q r s) (hf : Mixes f p q r s)
    (bit : Nat) : OrthonormalColumns (bitEntry f bit) (1 <<< bit) := by
  have hflip : ∀ k, (k ^^^ 1 <<< bit).testBit bit = !k.testBit bit := fun k => by
    rw [testBit_xor_shift, decide_eq_true rfl, Bool.xor_true]
  constructor
  · intro k
    rw [hf.stay, hf.cross, hflip]
    cases k.testBit bit
    · exact h.first
    · exact h.reverse.first
  · intro k
    rw [hf.stay, hf.stay, hf.cross, hf.cross, hflip]
    cases k.testBit bit
    · exact h.orthogonal
    · exact h.reverse.orthogonal

/-- Mixing the amplitudes of indices that have just one of two bits set. -/
theorem UnitaryRows.orthonormalColumns_swapEntry (h : UnitaryRows p q r s) (hf : Mixes f p q r s)
    {bit bit' : Nat} (hne : bit ≠ bit') :
    OrthonormalColumns (swapEntry f bit bit') (1 <<< bit ^^^ 1 <<< bit') := by
  have hflip : ∀ k, (k ^^^ (1 <<< bit ^^^ 1 <<< bit')).testBit bit = !k.testBit bit := fun k => by
    rw [← Nat.xor_assoc, testBit_xor_shift, testBit_xor_shift, decide_eq_true rfl,
      decide_eq_false hne.symm, Bool.xor_true, Bool.xor_false]
  have hflip' : ∀ k, (k ^^^ (1 <<< bit ^^^ 1 <<< bit')).testBit bit' = !k.testBit bit' :=
    fun k => by
      rw [← Nat.xor_assoc, testBit_xor_shift, testBit_xor_shift, decide_eq_true rfl,
        decide_eq_false hne, Bool.xor_true, Bool.xor_false]
  constructor
  · intro k
    simp only [swapEntry, hflip, hflip']
    cases k.testBit bit <;> cases k.testBit bit'
    · simp
    · simpa [hf.first, hf.second] using h.reverse.first
    · simpa [hf.first, hf.second] using h.first
    · simp
  · intro k
    simp only [swapEntry, hflip, hflip']
    cases k.testBit bit <;> cases k.testBit bit'
    · simp
    · simpa [hf.first, hf.second] using h.reverse.orthogonal
    · simpa [hf.first, hf.second] using h.orthogonal
    · simp

/-- A sweep that leaves all amplitudes but those with certain bits as they are. -/
theorem OrthonormalColumns.ite (h : OrthonormalColumns g mask) {c : Nat → Bool}
    (hc : ∀ k, c (k ^^^ mask) = c k) :
    OrthonormalColumns (fun k a b => if c k then g k a b else a) mask := by
  constructor
  · intro k
    simp only [hc]
    cases c k
    · simp
    · exact h.norm k
  · intro k
    simp only [hc]
    cases c k
    · simp
    · exact h.orthogonal k

/-- A sweep that multiplies every amplitude by a number of absolute value one. -/
theorem orthonormalColumns_scale {u : Nat → ℂ}
    (hg : ∀ k a b, (g k a b).toComplex = u k * a.toComplex) (hu : ∀ k, conj (u k) * u k = 1) :
    OrthonormalColumns g 0 := by
  constructor
  · intro k
    simp [hg, hu]
  · intro k
    simp [hg]

end Columns

namespace Operation

/-- **The matrix of every operation has orthonormal columns.** -/
theorem orthonormalColumns {op : Operation ℝ} {bits : List Nat} {n : Nat} (h : op.Fits bits n) :
    OrthonormalColumns (op.entry bits) (op.mask bits) := by
  obtain ⟨hlength, hnodup, -⟩ := h
  have hscale : ∀ (c : Nat → Bool) (u : ℂ), conj u * u = 1 →
      ∀ k, conj (if c k then u else 1) * (if c k then u else 1) = 1 := by
    intro c u hu k
    cases c k
    · simp
    · exact hu
  cases op
  case i =>
    obtain ⟨q, rfl⟩ := List.length_eq_one_iff.1 hlength
    exact orthonormalColumns_scale (u := fun _ => 1) (fun k a b => (one_mul _).symm) (by simp)
  case x =>
    obtain ⟨q, rfl⟩ := List.length_eq_one_iff.1 hlength
    exact unitaryRows_exchange.orthonormalColumns_bitEntry mixes_exchange q
  case y =>
    obtain ⟨q, rfl⟩ := List.length_eq_one_iff.1 hlength
    exact unitaryRows_mixY.orthonormalColumns_bitEntry mixes_mixY q
  case h =>
    obtain ⟨q, rfl⟩ := List.length_eq_one_iff.1 hlength
    exact unitaryRows_mixH.orthonormalColumns_bitEntry mixes_mixH q
  case rx theta =>
    obtain ⟨q, rfl⟩ := List.length_eq_one_iff.1 hlength
    exact (unitaryRows_mixRx theta).orthonormalColumns_bitEntry (mixes_mixRx theta) q
  case ry theta =>
    obtain ⟨q, rfl⟩ := List.length_eq_one_iff.1 hlength
    exact (unitaryRows_mixRy theta).orthonormalColumns_bitEntry (mixes_mixRy theta) q
  case u theta phi lambda =>
    obtain ⟨q, rfl⟩ := List.length_eq_one_iff.1 hlength
    exact (unitaryRows_mixU theta phi lambda).orthonormalColumns_bitEntry
      (mixes_mixU theta phi lambda) q
  case z =>
    obtain ⟨q, rfl⟩ := List.length_eq_one_iff.1 hlength
    refine orthonormalColumns_scale (fun k a b => ?_) (hscale (·.testBit q) (-1) (by simp))
    rw [entry]
    split <;> simp
  case phase theta =>
    obtain ⟨q, rfl⟩ := List.length_eq_one_iff.1 hlength
    refine orthonormalColumns_scale (fun k a b => ?_)
      (hscale (·.testBit q) (Complex.exp (theta * Complex.I)) (conj_mul_exp theta))
    rw [entry]
    split <;> simp [mul_comm]
  case rz theta =>
    obtain ⟨q, rfl⟩ := List.length_eq_one_iff.1 hlength
    refine orthonormalColumns_scale
      (u := fun k => Complex.exp ((if k.testBit q then theta / 2 else -theta / 2 : ℝ) * Complex.I))
      (fun k a b => ?_) fun k => conj_mul_exp _
    rw [entry, real_two]
    split <;> rw [Amplitude.toComplex_mul, Amplitude.toComplex_phase, mul_comm]
  case cz =>
    obtain ⟨c, q, rfl⟩ := List.length_eq_two.1 hlength
    refine orthonormalColumns_scale (fun k a b => ?_)
      (hscale (fun k => k.testBit c && k.testBit q) (-1) (by simp))
    rw [entry]
    split <;> simp
  case cx =>
    obtain ⟨c, q, rfl⟩ := List.length_eq_two.1 hlength
    have hne : q ≠ c := by simpa [eq_comm] using hnodup
    refine (unitaryRows_exchange.orthonormalColumns_bitEntry mixes_exchange q).ite
      (c := (·.testBit c)) fun k => ?_
    rw [testBit_xor_shift, decide_eq_false hne, Bool.xor_false]
  case swap =>
    obtain ⟨q, q', rfl⟩ := List.length_eq_two.1 hlength
    have hne : q ≠ q' := by simpa using hnodup
    exact unitaryRows_exchange.orthonormalColumns_swapEntry mixes_exchange hne
  case iswap =>
    obtain ⟨q, q', rfl⟩ := List.length_eq_two.1 hlength
    have hne : q ≠ q' := by simpa using hnodup
    exact unitaryRows_mixISwap.orthonormalColumns_swapEntry mixes_mixISwap hne
  case ccx =>
    obtain ⟨c, c', q, rfl⟩ := List.length_eq_three.1 hlength
    have hne : q ≠ c ∧ q ≠ c' := by
      simp only [List.nodup_cons, List.mem_cons, List.not_mem_nil, or_false, not_or] at hnodup
      exact ⟨Ne.symm hnodup.1.2, Ne.symm hnodup.2.1⟩
    refine (unitaryRows_exchange.orthonormalColumns_bitEntry mixes_exchange q).ite
      (c := fun k => k.testBit c && k.testBit c') fun k => ?_
    simp only [testBit_xor_shift, decide_eq_false hne.1, decide_eq_false hne.2, Bool.xor_false]

end Operation

/-! ### Inner products -/

section Overlap

/-- Exchanging every index with its partner reorders the indices of a register. -/
theorem sum_xor {n mask : Nat} (hmask : mask < 1 <<< n) (f : Nat → ℂ) :
    ∑ k ∈ Finset.range (1 <<< n), f (k ^^^ mask) = ∑ k ∈ Finset.range (1 <<< n), f k := by
  have hmem : ∀ k ∈ Finset.range (1 <<< n), k ^^^ mask ∈ Finset.range (1 <<< n) := fun k hk =>
    Finset.mem_range.2 (xor_lt_shift (Finset.mem_range.1 hk) hmask)
  exact Finset.sum_nbij' (· ^^^ mask) (· ^^^ mask) hmem hmem
    (fun k _ => Nat.xor_xor_cancel_right k mask) (fun k _ => Nat.xor_xor_cancel_right k mask)
    fun _ _ => rfl

/-- **Matrices with orthonormal columns preserve inner products.** -/
theorem sum_conj_act {op : Operation ℝ} {bits : List Nat} {n : Nat} (h : op.Fits bits n)
    (v w : Nat → ℂ) :
    ∑ k ∈ Finset.range (1 <<< n), conj (op.act bits v k) * op.act bits w k =
      ∑ k ∈ Finset.range (1 <<< n), conj (v k) * w k := by
  have hcolumns := Operation.orthonormalColumns h
  -- an index stands in its own row and in that of its partner, where the second sum looks for it
  calc ∑ k ∈ Finset.range (1 <<< n), conj (op.act bits v k) * op.act bits w k
      = ∑ k ∈ Finset.range (1 <<< n), conj (op.stay bits k * v k) * op.act bits w k +
          ∑ k ∈ Finset.range (1 <<< n),
            conj (op.cross bits k * v (k ^^^ op.mask bits)) * op.act bits w k := by
        rw [← Finset.sum_add_distrib]
        refine Finset.sum_congr rfl fun k _ => ?_
        rw [← add_mul, ← map_add]
        rfl
    _ = ∑ k ∈ Finset.range (1 <<< n), conj (op.stay bits k * v k) * op.act bits w k +
          ∑ k ∈ Finset.range (1 <<< n), conj (op.cross bits (k ^^^ op.mask bits) * v k) *
            op.act bits w (k ^^^ op.mask bits) := by
        rw [← sum_xor h.mask_lt fun k =>
          conj (op.cross bits k * v (k ^^^ op.mask bits)) * op.act bits w k]
        simp only [Nat.xor_xor_cancel_right]
    _ = ∑ k ∈ Finset.range (1 <<< n), conj (v k) * w k := by
        rw [← Finset.sum_add_distrib]
        refine Finset.sum_congr rfl fun k _ => ?_
        have hnorm := hcolumns.norm k
        have horthogonal := hcolumns.orthogonal k
        rw [← Operation.stay, ← Operation.cross] at hnorm
        rw [← Operation.stay, ← Operation.stay, ← Operation.cross, ← Operation.cross]
          at horthogonal
        simp only [Operation.act, Nat.xor_xor_cancel_right, map_mul]
        linear_combination conj (v k) * w k * hnorm +
          conj (v k) * w (k ^^^ op.mask bits) * horthogonal

namespace Statevector

/-- The inner product of two states of one register. -/
noncomputable def overlap (s t : Statevector ℝ) : ℂ :=
  ∑ k ∈ Finset.range (1 <<< s.qubitCount), conj (s.wave k) * t.wave k

variable {s t : Statevector ℝ}

/-- **Operations preserve inner products.** -/
theorem overlap_applyUnchecked {op : Operation ℝ} {bits : List Nat}
    (hcount : t.qubitCount = s.qubitCount) (h : op.Fits bits s.qubitCount) :
    (s.applyUnchecked op bits).overlap (t.applyUnchecked op bits) = s.overlap t := by
  rw [overlap, wave_applyUnchecked h, wave_applyUnchecked (s := t) (hcount ▸ h)]
  exact sum_conj_act h s.wave t.wave

/-- **Runs preserve inner products**, whatever their length. -/
theorem overlap_foldl (order : BitOrder) {program : Program ℝ}
    (hcount : t.qubitCount = s.qubitCount) (h : ∀ step ∈ program, FitsRegister step s.qubitCount) :
    (program.foldl order.applyTo s).overlap (program.foldl order.applyTo t) = s.overlap t := by
  induction program generalizing s t with
  | nil => rfl
  | cons step program ih =>
    obtain ⟨hstep, hprogram⟩ := List.forall_mem_cons.1 h
    have hfirst : (order.applyTo s step).overlap (order.applyTo t step) = s.overlap t := by
      rw [BitOrder.applyTo, BitOrder.applyTo, hcount]
      exact overlap_applyUnchecked hcount hstep.fits
    exact (ih (s := order.applyTo s step) (t := order.applyTo t step) hcount hprogram).trans hfirst

theorem overlap_zero (n : Nat) : (zero n : Statevector ℝ).overlap (zero n) = 1 := by
  have hmem : 0 ∈ Finset.range (1 <<< n) := by simp [Nat.one_shiftLeft]
  refine (Finset.sum_eq_single_of_mem 0 hmem fun k _ hk => ?_).trans ?_
  · rw [wave_zero, if_neg hk, mul_zero]
  · rw [wave_zero, if_pos rfl, map_one, one_mul]

theorem probabilities_nonneg (s : Statevector ℝ) : ∀ p ∈ s.probabilities, 0 ≤ p := by
  intro p hp
  obtain ⟨a, -, rfl⟩ := List.mem_map.1 hp
  exact add_nonneg (mul_self_nonneg _) (mul_self_nonneg _)

/-- Amplitudes are summed over the indices of the register. -/
theorem sum_range_getD {β : Type} [AddCommMonoid β] (s : Statevector ℝ) (f : Amplitude ℝ → β) :
    ∑ k ∈ Finset.range (1 <<< s.qubitCount), f (s.amplitudes.getD k 0) =
      (s.amplitudes.toList.map f).sum := by
  rw [← s.size_eq, ← Array.length_toList, Finset.sum_range, ← Fin.sum_univ_fun_getElem]
  refine Finset.sum_congr rfl fun k _ => ?_
  simp

/-- The inner product of a state with itself is the sum of its probabilities. -/
theorem overlap_self (s : Statevector ℝ) : s.overlap s = (s.probabilities.sum : ℝ) := by
  rw [probabilities, ← sum_range_getD, Complex.ofReal_sum, overlap]
  refine Finset.sum_congr rfl fun k _ => ?_
  rw [← Complex.normSq_eq_conj_mul_self]
  rfl

/-- Fidelity is the square of the absolute value of the inner product. -/
theorem fidelity_eq (hcount : t.qubitCount = s.qubitCount) :
    s.fidelity t = Complex.normSq (s.overlap t) := by
  have hzip : ∀ l : List (Amplitude ℝ × Amplitude ℝ),
      (l.foldl (fun sum (a, b) => sum + a.conj * b) (0 : Amplitude ℝ)).toComplex =
        (l.map fun (a, b) => conj a.toComplex * b.toComplex).sum := by
    intro l
    rw [List.sum_eq_foldl, List.foldl_map]
    refine (List.foldl_hom Amplitude.toComplex fun sum p => ?_).symm
    rw [Amplitude.toComplex_add, Amplitude.toComplex_mul]
    rfl
  have hlength : (s.amplitudes.toList.zip t.amplitudes.toList).length = 1 <<< s.qubitCount := by
    rw [List.length_zip, Array.length_toList, Array.length_toList, s.size_eq, t.size_eq, hcount,
      Nat.min_self]
  have hsum : s.overlap t = ((s.amplitudes.toList.zip t.amplitudes.toList).map
      fun (a, b) => conj a.toComplex * b.toComplex).sum := by
    rw [overlap, ← hlength, Finset.sum_range, ← Fin.sum_univ_fun_getElem]
    refine Finset.sum_congr rfl fun k _ => ?_
    have hs : k < s.amplitudes.size := by
      rw [s.size_eq, ← hlength]
      exact k.isLt
    have ht : k < t.amplitudes.size := by
      rw [t.size_eq, hcount, ← hlength]
      exact k.isLt
    simp [wave, hs, ht]
  rw [fidelity, if_pos hcount.symm, hsum, ← hzip]
  rfl

end Statevector

end Overlap

/-- **Evolution is unitary** over exact numbers. Every state that a program is run to has
non-negative probabilities that sum to one. An operation that can be applied to a state can be
applied to every state of the same size, and preserves the inner product of the two, and so their
fidelity, which is the square of its absolute value. -/
theorem evolution_is_unitary :
    (∀ (n : Nat) (order : BitOrder) (program : Program ℝ) (s : Statevector ℝ),
      run n order program = .ok s →
        s.probabilities.length = 2 ^ n ∧ (∀ p ∈ s.probabilities, 0 ≤ p) ∧
          s.probabilities.sum = 1) ∧
    (∀ (s s' t : Statevector ℝ) (op : Operation ℝ) (bits : List Nat),
      t.qubitCount = s.qubitCount → s.apply op bits = .ok s' →
        ∃ t', t.apply op bits = .ok t' ∧ s'.overlap t' = s.overlap t ∧
          s'.fidelity t' = s.fidelity t) ∧
    ∀ s t : Statevector ℝ, t.qubitCount = s.qubitCount →
      s.fidelity t = Complex.normSq (s.overlap t) := by
  refine ⟨fun n order program s h => ?_, fun s s' t op bits hcount h => ?_, fun s t hcount =>
    Statevector.fidelity_eq hcount⟩
  · obtain ⟨-, hfits, rfl⟩ := run_eq_ok_iff.1 h
    refine ⟨?_, Statevector.probabilities_nonneg _, ?_⟩
    · rw [Statevector.length_probabilities, qubitCount_foldl, Nat.one_shiftLeft]
      rfl
    · have hoverlap := Statevector.overlap_foldl order (s := .zero n) (t := .zero n) rfl hfits
      rw [Statevector.overlap_self, Statevector.overlap_zero] at hoverlap
      exact_mod_cast hoverlap
  · obtain ⟨hfits, rfl⟩ := apply_eq_ok_iff.1 h
    have hoverlap := Statevector.overlap_applyUnchecked hcount hfits
    have hfidelity : (s.applyUnchecked op bits).fidelity (t.applyUnchecked op bits) =
        Complex.normSq ((s.applyUnchecked op bits).overlap (t.applyUnchecked op bits)) :=
      Statevector.fidelity_eq hcount
    refine ⟨_, apply_eq_ok_iff.2 ⟨hcount ▸ hfits, rfl⟩, hoverlap, ?_⟩
    rw [hfidelity, hoverlap, Statevector.fidelity_eq hcount]

/-- Three operations of different kinds on a register of two qubits, and one of them on the state
that they lead to and on the state in which both qubits are zero. -/
theorem evolution_is_unitary_two :
    ∃ s s' t' : Statevector ℝ,
      run 2 .bigEndian [(.h, [0]), (.u 1 2 3, [1]), (.iswap, [1, 0])] = .ok s ∧
      s.probabilities.length = 4 ∧ s.probabilities.sum = 1 ∧
      s.apply (.rx 1) [1] = .ok s' ∧ (Statevector.zero 2).apply (.rx 1) [1] = .ok t' ∧
      s'.fidelity t' = s.fidelity (.zero 2) := by
  obtain ⟨hruns, hoperations, -⟩ := evolution_is_unitary
  have hfits : ∀ step ∈ ([(.h, [0]), (.u 1 2 3, [1]), (.iswap, [1, 0])] : Program ℝ),
      FitsRegister step 2 := by
    simp only [List.forall_mem_cons]
    exact ⟨⟨rfl, by decide, by simp⟩, ⟨rfl, by decide, by simp⟩, ⟨rfl, by decide, by simp⟩, nofun⟩
  obtain ⟨s, hs, hcount⟩ : ∃ s : Statevector ℝ,
      run 2 .bigEndian [(.h, [0]), (.u 1 2 3, [1]), (.iswap, [1, 0])] = .ok s ∧
        s.qubitCount = 2 :=
    ⟨_, exists_run .bigEndian (by decide) hfits, qubitCount_foldl ..⟩
  have hrx : (Operation.rx (1 : ℝ)).Fits [1] s.qubitCount := by
    rw [hcount]
    exact ⟨rfl, by decide, by decide⟩
  obtain ⟨s', hs'⟩ : ∃ s', s.apply (.rx 1) [1] = .ok s' := ⟨_, apply_eq_ok_iff.2 ⟨hrx, rfl⟩⟩
  obtain ⟨hlength, -, hsum⟩ := hruns _ _ _ _ hs
  obtain ⟨t', ht', -, hfidelity⟩ := hoperations _ _ (.zero 2) _ _ hcount.symm hs'
  exact ⟨s, s', t', hs, hlength, hsum, hs', ht', hfidelity⟩

end CircuitExchange
