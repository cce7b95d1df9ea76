import Mathlib
import CircuitExchange.Proofs.Result
import CircuitExchange.Proofs.State.Kernel

/-!
States over exact numbers. With real angles and functions an amplitude is a complex number, a state
is a function on the indices, and an operation is a sparse matrix with at most two entries a row.

* `Amplitude.toComplex`: amplitudes as complex numbers.
* `Statevector.wave`: a state as a function of the index, zero outside the register.
* `Operation.act`: the matrix of an operation.
* `Statevector.wave_applyUnchecked`: operations act by their matrix.
-/

namespace CircuitExchange

/-- Real numbers, with the constant and the functions of analysis. -/
noncomputable instance : Scalar ℝ where
  pi := Real.pi
  sqrt := Real.sqrt
  sin := Real.sin
  cos := Real.cos

theorem real_pi : (Scalar.pi : ℝ) = Real.pi := rfl

theorem real_two : (Scalar.two : ℝ) = 2 := one_add_one_eq_two

namespace Amplitude

/-- An amplitude with real parts as a complex number. -/
def toComplex (a : Amplitude ℝ) : ℂ := ⟨a.re, a.im⟩

theorem toComplex_injective {a b : Amplitude ℝ} (h : a.toComplex = b.toComplex) : a = b :=
  Amplitude.ext (congrArg Complex.re h) (congrArg Complex.im h)

@[simp]
theorem toComplex_zero : (0 : Amplitude ℝ).toComplex = 0 := rfl

@[simp]
theorem toComplex_one : (1 : Amplitude ℝ).toComplex = 1 := rfl

@[simp]
theorem toComplex_add (a b : Amplitude ℝ) : (a + b).toComplex = a.toComplex + b.toComplex := rfl

@[simp]
theorem toComplex_sub (a b : Amplitude ℝ) : (a - b).toComplex = a.toComplex - b.toComplex := rfl

@[simp]
theorem toComplex_neg (a : Amplitude ℝ) : (-a).toComplex = -a.toComplex := rfl

@[simp]
theorem toComplex_mul (a b : Amplitude ℝ) : (a * b).toComplex = a.toComplex * b.toComplex :=
  Complex.ext rfl rfl

@[simp]
theorem toComplex_scale (r : ℝ) (a : Amplitude ℝ) : (a.scale r).toComplex = r * a.toComplex := by
  apply Complex.ext
  · simp [toComplex, scale]
  · simp [toComplex, scale]

@[simp]
theorem toComplex_unit : (unit : Amplitude ℝ).toComplex = Complex.I := rfl

@[simp]
theorem toComplex_phase (theta : ℝ) :
    (phase theta).toComplex = Complex.exp (theta * Complex.I) := by
  apply Complex.ext
  · rw [Complex.exp_ofReal_mul_I_re]
    exact one_mul (Real.cos theta)
  · rw [Complex.exp_ofReal_mul_I_im]
    exact one_mul (Real.sin theta)

end Amplitude

/-! ### Matrices -/

/-- The function is the matrix with the rows `p q` and `r s`. -/
structure Mixes (f : Amplitude ℝ → Amplitude ℝ → Amplitude ℝ × Amplitude ℝ) (p q r s : ℂ) :
    Prop where
  first : ∀ a b, (f a b).1.toComplex = p * a.toComplex + q * b.toComplex
  second : ∀ a b, (f a b).2.toComplex = r * a.toComplex + s * b.toComplex

theorem mixes_exchange : Mixes exchange 0 1 1 0 := by
  constructor
  · intro a b
    simp [exchange]
  · intro a b
    simp [exchange]

theorem mixes_mixY : Mixes mixY 0 (-Complex.I) Complex.I 0 := by
  constructor
  · intro a b
    simp [mixY]
  · intro a b
    simp [mixY]

theorem mixes_mixH :
    Mixes mixH (1 / √2 : ℝ) (1 / √2 : ℝ) (1 / √2 : ℝ) (-(1 / √2 : ℝ)) := by
  have hroot : (Scalar.sqrt (Scalar.two : ℝ)) = √2 := by rw [real_two]; rfl
  constructor
  · intro a b
    simp only [mixH, hroot, Amplitude.toComplex_scale, Amplitude.toComplex_add]
    ring
  · intro a b
    simp only [mixH, hroot, Amplitude.toComplex_scale, Amplitude.toComplex_sub]
    ring

theorem mixes_mixRx (theta : ℝ) :
    Mixes (mixRx theta) (Real.cos (theta / 2)) (-Complex.I * Real.sin (theta / 2))
      (-Complex.I * Real.sin (theta / 2)) (Real.cos (theta / 2)) := by
  have hs : Amplitude.toComplex ⟨0, -Real.sin (theta / 2)⟩ =
      -Complex.I * Real.sin (theta / 2) := by
    generalize Real.sin (theta / 2) = s
    apply Complex.ext <;> simp [Amplitude.toComplex]
  have hmix : ∀ a b, mixRx theta a b =
      (a.scale (Real.cos (theta / 2)) + ⟨0, -Real.sin (theta / 2)⟩ * b,
        ⟨0, -Real.sin (theta / 2)⟩ * a + b.scale (Real.cos (theta / 2))) := by
    intro a b
    rw [← real_two]
    rfl
  constructor
  · intro a b
    rw [hmix, Amplitude.toComplex_add, Amplitude.toComplex_scale, Amplitude.toComplex_mul, hs]
  · intro a b
    rw [hmix, Amplitude.toComplex_add, Amplitude.toComplex_scale, Amplitude.toComplex_mul, hs]

theorem mixes_mixRy (theta : ℝ) :
    Mixes (mixRy theta) (Real.cos (theta / 2)) (-Real.sin (theta / 2)) (Real.sin (theta / 2))
      (Real.cos (theta / 2)) := by
  have hmix : ∀ a b, mixRy theta a b =
      (a.scale (Real.cos (theta / 2)) - b.scale (Real.sin (theta / 2)),
        a.scale (Real.sin (theta / 2)) + b.scale (Real.cos (theta / 2))) := by
    intro a b
    rw [← real_two]
    rfl
  constructor
  · intro a b
    rw [hmix, Amplitude.toComplex_sub, Amplitude.toComplex_scale, Amplitude.toComplex_scale]
    ring
  · intro a b
    rw [hmix, Amplitude.toComplex_add, Amplitude.toComplex_scale, Amplitude.toComplex_scale]

theorem mixes_mixU (theta phi lambda : ℝ) :
    Mixes (mixU theta phi lambda) (Real.cos (theta / 2))
      (-(Real.sin (theta / 2) * Complex.exp (lambda * Complex.I)))
      (Real.sin (theta / 2) * Complex.exp (phi * Complex.I))
      (Real.cos (theta / 2) * Complex.exp ((phi + lambda : ℝ) * Complex.I)) := by
  have hmix : ∀ a b, mixU theta phi lambda a b =
      (a.scale (Real.cos (theta / 2)) -
          (Amplitude.phase lambda).scale (Real.sin (theta / 2)) * b,
        (Amplitude.phase phi).scale (Real.sin (theta / 2)) * a +
          (Amplitude.phase (phi + lambda)).scale (Real.cos (theta / 2)) * b) := by
    intro a b
    rw [← real_two]
    rfl
  constructor
  · intro a b
    rw [hmix]
    simp only [Amplitude.toComplex_sub, Amplitude.toComplex_scale, Amplitude.toComplex_mul,
      Amplitude.toComplex_phase]
    ring
  · intro a b
    rw [hmix]
    simp only [Amplitude.toComplex_add, Amplitude.toComplex_scale, Amplitude.toComplex_mul,
      Amplitude.toComplex_phase]

theorem mixes_mixISwap : Mixes mixISwap 0 Complex.I Complex.I 0 := by
  constructor
  · intro a b
    simp [mixISwap]
  · intro a b
    simp [mixISwap]

/-- A function of two amplitudes that is linear in them. -/
def IsLinear (g : Amplitude ℝ → Amplitude ℝ → Amplitude ℝ) : Prop :=
  ∃ p q : ℂ, ∀ a b, (g a b).toComplex = p * a.toComplex + q * b.toComplex

theorem isLinear_fst : IsLinear fun a _ => a := ⟨1, 0, fun a b => by simp⟩

theorem isLinear_neg : IsLinear fun a _ => -a := ⟨-1, 0, fun a b => by simp⟩

theorem isLinear_mul (c : Amplitude ℝ) : IsLinear fun a _ => a * c :=
  ⟨c.toComplex, 0, fun a b => by rw [Amplitude.toComplex_mul]; ring⟩

theorem IsLinear.ite {g g' : Amplitude ℝ → Amplitude ℝ → Amplitude ℝ} (hg : IsLinear g)
    (hg' : IsLinear g') (c : Prop) [Decidable c] :
    IsLinear fun a b => if c then g a b else g' a b := by
  by_cases hc : c
  · simpa only [if_pos hc] using hg
  · simpa only [if_neg hc] using hg'

section Mixes

variable {f : Amplitude ℝ → Amplitude ℝ → Amplitude ℝ × Amplitude ℝ} {p q r s : ℂ}

theorem Mixes.isLinear_bitEntry (h : Mixes f p q r s) (bit k : Nat) :
    IsLinear (bitEntry f bit k) := by
  refine IsLinear.ite ⟨s, r, fun a b => ?_⟩ ⟨p, q, h.first⟩ _
  rw [h.second]
  ring

theorem Mixes.isLinear_swapEntry (h : Mixes f p q r s) (bit bit' k : Nat) :
    IsLinear (swapEntry f bit bit' k) := by
  refine IsLinear.ite ⟨p, q, h.first⟩ (IsLinear.ite ⟨s, r, fun a b => ?_⟩ isLinear_fst _) _
  rw [h.second]
  ring

end Mixes

namespace Operation

/-- What an operation makes of an amplitude is linear in it and in its partner. -/
theorem isLinear_entry (op : Operation ℝ) (bits : List Nat) (k : Nat) :
    IsLinear (op.entry bits k) := by
  unfold entry
  split
  · exact mixes_exchange.isLinear_bitEntry ..
  · exact mixes_mixY.isLinear_bitEntry ..
  · exact isLinear_neg.ite isLinear_fst _
  · exact mixes_mixH.isLinear_bitEntry ..
  · exact (isLinear_mul _).ite isLinear_fst _
  · exact (mixes_mixRx _).isLinear_bitEntry ..
  · exact (mixes_mixRy _).isLinear_bitEntry ..
  · exact (isLinear_mul _).ite (isLinear_mul _) _
  · exact (mixes_mixU ..).isLinear_bitEntry ..
  · exact (mixes_exchange.isLinear_bitEntry ..).ite isLinear_fst _
  · exact isLinear_neg.ite isLinear_fst _
  · exact mixes_exchange.isLinear_swapEntry ..
  · exact mixes_mixISwap.isLinear_swapEntry ..
  · exact (mixes_exchange.isLinear_bitEntry ..).ite isLinear_fst _
  · exact isLinear_fst

/-- The entry on the diagonal of the operation's matrix. -/
noncomputable def stay (op : Operation ℝ) (bits : List Nat) (k : Nat) : ℂ :=
  (op.entry bits k 1 0).toComplex

/-- The entry in the partner's column of the operation's matrix. -/
noncomputable def cross (op : Operation ℝ) (bits : List Nat) (k : Nat) : ℂ :=
  (op.entry bits k 0 1).toComplex

theorem toComplex_entry (op : Operation ℝ) (bits : List Nat) (k : Nat) (a b : Amplitude ℝ) :
    (op.entry bits k a b).toComplex =
      op.stay bits k * a.toComplex + op.cross bits k * b.toComplex := by
  obtain ⟨p, q, hpq⟩ := op.isLinear_entry bits k
  rw [hpq, stay, cross, hpq, hpq]
  simp

/-- The action of the operation's matrix on a function of the index. -/
noncomputable def act (op : Operation ℝ) (bits : List Nat) (v : Nat → ℂ) : Nat → ℂ := fun k =>
  op.stay bits k * v k + op.cross bits k * v (k ^^^ op.mask bits)

section Locality

variable {op op' : Operation ℝ} {bits bits' : List Nat}

/-- Entries of the matrix are the same at the partner under an operation on other bits. -/
theorem entry_xor_mask (h : bits.Disjoint bits') (k : Nat) (a b : Amplitude ℝ) :
    op.entry bits (k ^^^ op'.mask bits') a b = op.entry bits k a b := by
  refine entry_congr (fun bit hbit => ?_) a b
  rw [Nat.testBit_xor, testBit_mask (h hbit), Bool.xor_false]

/-- **Matrices on disjoint bits commute.** -/
theorem act_comm (h : bits.Disjoint bits') (v : Nat → ℂ) :
    op.act bits (op'.act bits' v) = op'.act bits' (op.act bits v) := by
  funext k
  have hxor : k ^^^ op.mask bits ^^^ op'.mask bits' = k ^^^ op'.mask bits' ^^^ op.mask bits := by
    rw [Nat.xor_assoc, Nat.xor_comm (op.mask bits), ← Nat.xor_assoc]
  simp only [act, stay, cross, entry_xor_mask h, entry_xor_mask h.symm, hxor]
  ring

end Locality

end Operation

/-! ### States -/

namespace Statevector

/-- The state as a function of the index, zero outside the register. -/
noncomputable def wave (s : Statevector ℝ) (k : Nat) : ℂ := (s.amplitudes.getD k 0).toComplex

theorem wave_of_le {s : Statevector ℝ} {k : Nat} (h : 1 <<< s.qubitCount ≤ k) : s.wave k = 0 := by
  rw [wave, Array.getD_eq_getD_getElem?, Array.getElem?_eq_none (s.size_eq ▸ h)]
  rfl

theorem wave_zero (n k : Nat) :
    (zero n : Statevector ℝ).wave k = if k = 0 then 1 else 0 := by
  rw [wave, getD_zero]
  split <;> rfl

theorem ext_wave {s t : Statevector ℝ} (hcount : s.qubitCount = t.qubitCount)
    (h : ∀ k < 1 <<< s.qubitCount, s.wave k = t.wave k) : s = t :=
  ext_getD hcount fun k hk => Amplitude.toComplex_injective (h k hk)

theorem wave_applyUnchecked {s : Statevector ℝ} {op : Operation ℝ} {bits : List Nat}
    (h : op.Fits bits s.qubitCount) : (s.applyUnchecked op bits).wave = op.act bits s.wave := by
  funext k
  by_cases hk : k < 1 <<< s.qubitCount
  · rw [wave, applyUnchecked, getD_kernel h s.size_eq hk, Operation.toComplex_entry]
    rfl
  · have hpartner : ¬ k ^^^ op.mask bits < 1 <<< s.qubitCount := fun hlt => hk <| by
      have hback := xor_lt_shift hlt h.mask_lt
      rwa [Nat.xor_assoc, Nat.xor_self, Nat.xor_zero] at hback
    rw [Operation.act, wave_of_le (Nat.not_lt.1 hk), wave_of_le (Nat.not_lt.1 hpartner),
      wave_of_le (s := s.applyUnchecked op bits) (Nat.not_lt.1 hk), mul_zero, mul_zero, add_zero]

end Statevector

end CircuitExchange
