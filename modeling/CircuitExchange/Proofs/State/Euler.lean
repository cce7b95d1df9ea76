import Mathlib
import CircuitExchange.Proofs.State.Exact

/-!
Rotations up to a global phase. A general rotation is three rotations around `Z`, `X` and `Z`, times
a phase that is the same for all amplitudes.

* `act_rz`, `act_rx`, `act_u`: the matrices of rotations, row by row.
* `Realizes`: operations in turn that do what one does, times a factor.
* `realizes_u`: the Euler angles of the general rotation.
-/

namespace CircuitExchange

/-! ### Rows of matrices -/

section Rows

variable {f : Amplitude ℝ → Amplitude ℝ → Amplitude ℝ × Amplitude ℝ} {p q r s : ℂ}

theorem Mixes.stay (h : Mixes f p q r s) (bit k : Nat) :
    (bitEntry f bit k 1 0).toComplex = if k.testBit bit then s else p := by
  rw [bitEntry]
  split
  · simp [h.second]
  · simp [h.first]

theorem Mixes.cross (h : Mixes f p q r s) (bit k : Nat) :
    (bitEntry f bit k 0 1).toComplex = if k.testBit bit then r else q := by
  rw [bitEntry]
  split
  · simp [h.second]
  · simp [h.first]

variable (theta phi lambda : ℝ) (bit : Nat) (v : Nat → ℂ) (k : Nat)

theorem act_phase : (Operation.phase theta).act [bit] v k =
    (if k.testBit bit then Complex.exp (theta * Complex.I) else 1) * v k := by
  have hstay : (Operation.phase theta).stay [bit] k =
      if k.testBit bit then Complex.exp (theta * Complex.I) else 1 := by
    rw [Operation.stay, Operation.entry]
    split <;> simp
  have hcross : (Operation.phase theta).cross [bit] k = 0 := by
    rw [Operation.cross, Operation.entry]
    split <;> simp
  rw [Operation.act, hstay, hcross, zero_mul, add_zero]

theorem act_rz : (Operation.rz theta).act [bit] v k =
    (if k.testBit bit then Complex.exp ((theta / 2 : ℝ) * Complex.I)
      else Complex.exp ((-theta / 2 : ℝ) * Complex.I)) * v k := by
  have hstay : (Operation.rz theta).stay [bit] k =
      if k.testBit bit then Complex.exp ((theta / 2 : ℝ) * Complex.I)
        else Complex.exp ((-theta / 2 : ℝ) * Complex.I) := by
    rw [Operation.stay, Operation.entry, real_two]
    split <;> simp only [Amplitude.toComplex_mul, Amplitude.toComplex_one, one_mul,
      Amplitude.toComplex_phase]
  have hcross : (Operation.rz theta).cross [bit] k = 0 := by
    rw [Operation.cross, Operation.entry]
    split <;> simp
  rw [Operation.act, hstay, hcross, zero_mul, add_zero]

theorem act_rx : (Operation.rx theta).act [bit] v k =
    Real.cos (theta / 2) * v k +
      -Complex.I * Real.sin (theta / 2) * v (k ^^^ 1 <<< bit) := by
  have hstay := (mixes_mixRx theta).stay bit k
  have hcross := (mixes_mixRx theta).cross bit k
  rw [ite_self] at hstay hcross
  rw [Operation.act, Operation.stay, Operation.cross]
  exact congrArg₂ _ (congrArg (· * v k) hstay) (congrArg (· * v (k ^^^ 1 <<< bit)) hcross)

theorem act_u : (Operation.u theta phi lambda).act [bit] v k =
    (if k.testBit bit then
        Real.cos (theta / 2) * Complex.exp ((phi + lambda : ℝ) * Complex.I)
      else (Real.cos (theta / 2) : ℂ)) * v k +
      (if k.testBit bit then Real.sin (theta / 2) * Complex.exp (phi * Complex.I)
        else -(Real.sin (theta / 2) * Complex.exp (lambda * Complex.I))) *
        v (k ^^^ 1 <<< bit) := by
  have hstay := (mixes_mixU theta phi lambda).stay bit k
  have hcross := (mixes_mixU theta phi lambda).cross bit k
  rw [Operation.act, Operation.stay, Operation.cross]
  exact congrArg₂ _ (congrArg (· * v k) hstay) (congrArg (· * v (k ^^^ 1 <<< bit)) hcross)

end Rows

/-! ### Operations up to a phase -/

/-- On every function of the index, the operations in turn do what the operation does, times the
factor. -/
def Realizes (ops : List (Operation ℝ)) (g : ℂ) (op : Operation ℝ) : Prop :=
  ∀ (bits : List Nat) (v : Nat → ℂ), bits.length = op.arity →
    ops.foldl (fun v op' => op'.act bits v) v = fun k => g * op.act bits v k

theorem realizes_self (op : Operation ℝ) : Realizes [op] 1 op := by
  intro bits v _
  funext k
  rw [one_mul]
  rfl

/-- The factor that exporting a rotation adds to all amplitudes. -/
noncomputable def halfPhase (angle : ℝ) : ℂ := Complex.exp ((-angle / 2 : ℝ) * Complex.I)

theorem norm_halfPhase (angle : ℝ) : ‖halfPhase angle‖ = 1 := Complex.norm_exp_ofReal_mul_I _

/-- A diagonal phase is a rotation around `Z` up to a global phase. -/
theorem realizes_phase (lambda : ℝ) : Realizes [.rz lambda] (halfPhase lambda) (.phase lambda) := by
  intro bits v hbits
  obtain ⟨bit, rfl⟩ := List.length_eq_one_iff.1 hbits
  funext k
  rw [List.foldl_cons, List.foldl_nil, act_rz, act_phase, ← mul_assoc]
  congr 1
  split
  · rw [halfPhase, ← Complex.exp_add]
    congr 1
    push_cast
    ring
  · rw [mul_one]
    rfl

/-- Phases multiply by adding their angles. -/
theorem exp_mul_exp {x y z w : ℝ} (h : x + y = z + w) :
    Complex.exp (x * Complex.I) * Complex.exp (y * Complex.I) =
      Complex.exp (z * Complex.I) * Complex.exp (w * Complex.I) := by
  rw [← Complex.exp_add, ← Complex.exp_add, ← add_mul, ← add_mul, ← Complex.ofReal_add, h,
    Complex.ofReal_add]

theorem exp_sub_quarter (x : ℝ) :
    Complex.I * Complex.exp ((x - Real.pi / 2 : ℝ) * Complex.I) = Complex.exp (x * Complex.I) := by
  have hadd := exp_mul_exp (x := Real.pi / 2) (y := x - Real.pi / 2) (z := 0) (w := x) (by ring)
  rwa [Complex.ofReal_zero, zero_mul, Complex.exp_zero, one_mul, Complex.ofReal_div,
    Complex.ofReal_ofNat, Complex.exp_pi_div_two_mul_I] at hadd

theorem exp_add_quarter (x : ℝ) :
    -Complex.I * Complex.exp ((x + Real.pi / 2 : ℝ) * Complex.I) = Complex.exp (x * Complex.I) := by
  rw [← exp_sub_quarter (x + Real.pi / 2), add_sub_cancel_right, ← mul_assoc, neg_mul,
    Complex.I_mul_I, neg_neg, one_mul]

/-- **The Euler angles of the general rotation**, up to a global phase. -/
theorem realizes_u (theta phi lambda : ℝ) :
    Realizes [.rz (lambda - Real.pi / 2), .rx theta, .rz (phi + Real.pi / 2)]
      (halfPhase (phi + lambda)) (.u theta phi lambda) := by
  intro bits v hbits
  obtain ⟨bit, rfl⟩ := List.length_eq_one_iff.1 hbits
  funext k
  have hpartner : (k ^^^ 1 <<< bit).testBit bit = !k.testBit bit := by
    rw [testBit_xor_shift, decide_eq_true rfl, Bool.xor_true]
  rw [List.foldl_cons, List.foldl_cons, List.foldl_cons, List.foldl_nil, act_rz, act_rx, act_rz,
    act_rz, act_u, hpartner]
  generalize (Real.cos (theta / 2) : ℂ) = cosine, (Real.sin (theta / 2) : ℂ) = sine
  cases k.testBit bit with
  | false =>
    have hstay : _ = halfPhase (phi + lambda) * _ :=
      exp_mul_exp (x := -(phi + Real.pi / 2) / 2) (y := -(lambda - Real.pi / 2) / 2)
        (w := 0) (by ring)
    have hcross : _ = halfPhase (phi + lambda) * _ :=
      exp_mul_exp (x := -(phi + Real.pi / 2) / 2) (y := (lambda - Real.pi / 2) / 2)
        (w := lambda - Real.pi / 2) (by ring)
    rw [Complex.ofReal_zero, zero_mul, Complex.exp_zero, mul_one] at hstay
    simp only [Bool.false_eq_true, Bool.not_false, if_false, if_true]
    linear_combination (cosine * v k) * hstay -
      (Complex.I * sine * v (k ^^^ 1 <<< bit)) * hcross -
      (halfPhase (phi + lambda) * sine * v (k ^^^ 1 <<< bit)) * exp_sub_quarter lambda
  | true =>
    have hstay : _ = halfPhase (phi + lambda) * _ :=
      exp_mul_exp (x := (phi + Real.pi / 2) / 2) (y := (lambda - Real.pi / 2) / 2)
        (w := phi + lambda) (by ring)
    have hcross : _ = halfPhase (phi + lambda) * _ :=
      exp_mul_exp (x := (phi + Real.pi / 2) / 2) (y := -(lambda - Real.pi / 2) / 2)
        (w := phi + Real.pi / 2) (by ring)
    simp only [Bool.not_true, Bool.false_eq_true, if_false, if_true]
    linear_combination (cosine * v k) * hstay -
      (Complex.I * sine * v (k ^^^ 1 <<< bit)) * hcross +
      (halfPhase (phi + lambda) * sine * v (k ^^^ 1 <<< bit)) * exp_add_quarter phi

end CircuitExchange
