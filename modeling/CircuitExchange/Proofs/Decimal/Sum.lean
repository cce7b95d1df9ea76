import Mathlib
import CircuitExchange.Proofs.Decimal.Word

/-!
Sums with a small number do not overflow. The largest finite number is further from the next power
of two than any small number can bring it, so rounding a sum stays within the finite numbers.

* `isFinite_add`, `isFinite_sub`: sums and differences of a finite and a small number are finite.
-/

namespace CircuitExchange.Decimal

open Float.Model Float.Model.UnpackedFloat

/-! ### Rounding a mantissa -/

/-- Shifting out bits keeps the last of them in the round bit. -/
theorem two_mul_mantissa_shiftRight (m k : Nat) :
    2 * (ExtendedMantissa.ofMantissaAndAccuracy m .exact >>> k).mantissa +
      (ExtendedMantissa.ofMantissaAndAccuracy m .exact >>> k).roundBit.toNat = 2 * m / 2 ^ k := by
  induction k with
  | zero =>
    rw [Nat.pow_zero, Nat.div_one]
    rfl
  | succ k ih =>
    generalize hem : ExtendedMantissa.ofMantissaAndAccuracy m .exact >>> k = em at ih
    have hstep : ExtendedMantissa.ofMantissaAndAccuracy m .exact >>> (k + 1) =
        em.shiftRightOne := by
      rw [← hem]
      rfl
    have hbit : (em.mantissa % 2 != 0).toNat = em.mantissa % 2 := by
      rcases Nat.mod_two_eq_zero_or_one em.mantissa with h | h <;> rw [h] <;> rfl
    have hround := Bool.toNat_le em.roundBit
    rw [hstep, Nat.pow_succ, ← Nat.div_div_eq_div_mul, ← ih]
    simp only [ExtendedMantissa.shiftRightOne, hbit]
    omega

/-- Rounding goes up at most if the round bit is set. -/
theorem roundedMantissa_le (em : ExtendedMantissa) :
    em.roundedMantissa ≤ em.mantissa + em.roundBit.toNat := by
  obtain ⟨m, round, sticky⟩ := em
  cases round <;> cases sticky <;>
    simp only [ExtendedMantissa.roundedMantissa, ExtendedMantissa.accuracy,
      Accuracy.roundToNearestEven, Bool.toNat_false, Bool.toNat_true] <;> omega

/-- A rounded mantissa is at most the nearest number. -/
theorem roundedMantissa_shiftRight_le (m k : Nat) :
    (ExtendedMantissa.ofMantissaAndAccuracy m .exact >>> k).roundedMantissa ≤
      (2 * m / 2 ^ k + 1) / 2 := by
  have hround := roundedMantissa_le (ExtendedMantissa.ofMantissaAndAccuracy m .exact >>> k)
  have hbits := two_mul_mantissa_shiftRight m k
  have hbit := Bool.toNat_le (ExtendedMantissa.ofMantissaAndAccuracy m .exact >>> k).roundBit
  omega

/-! ### Rounding a number -/

/-- A zero, or a magnitude with a mantissa of the format and a bounded exponent. -/
def Bounded (bound : Int) : UnpackedFloat → Prop
  | .zero _ => True
  | .finite _ m e _ => m < 2 ^ 53 ∧ e ≤ bound
  | _ => False

theorem Bounded.mono {bound bound' : Int} {x : UnpackedFloat} (h : Bounded bound x)
    (hle : bound ≤ bound') : Bounded bound' x := by
  cases x with
  | zero => exact trivial
  | finite => exact ⟨h.1, h.2.trans hle⟩
  | _ => exact h.elim

theorem Bounded.neg {bound : Int} {x : UnpackedFloat} (h : Bounded bound x) :
    Bounded bound x.neg := by
  cases x with
  | zero => exact trivial
  | finite => exact h
  | _ => exact h.elim

/-- The exponent field is not that of infinity. -/
def PacksFinite (x : UnpackedFloat) : Prop :=
  unpackExponent (UnpackedFloat.pack Format.binary64 x) ≠ -1#_

theorem packsFinite_zero (s : Sign) : PacksFinite (.zero s) := by
  rw [PacksFinite, UnpackedFloat.pack, packedZero, unpackExponent_packComponents]
  decide

theorem packsFinite_finite {s : Sign} {m : Nat} {e : Int} {hpos : 0 < m} (h : e ≤ 971) :
    PacksFinite (.finite s m e hpos) := by
  have hbias : Format.binary64.exponentBias = 1023 := by decide
  have hbiased : (e + (1023 : Nat) + (52 : Nat)).toNat + 1 < 2 ^ 11 := by omega
  rw [PacksFinite, UnpackedFloat.pack, hbias, if_neg (Nat.not_le.2 hbiased)]
  split
  · rw [unpackExponent_packComponents, Ne, ← BitVec.toNat_inj, BitVec.toNat_ofNat]
    simp only [BitVec.neg_one_eq_allOnes, BitVec.toNat_allOnes]
    omega
  · rw [unpackExponent_packComponents]
    decide

theorem Bounded.packsFinite {x : UnpackedFloat} (h : Bounded 971 x) : PacksFinite x := by
  cases x with
  | zero s => exact packsFinite_zero s
  | finite => exact packsFinite_finite h.2
  | _ => exact h.elim

/-- The magnitude is rounded to a finite number: it is less than halfway from the largest one to the
power of two above. -/
def RoundsFinite (m : Nat) (e : Int) : Prop :=
  ∃ k : Nat, e + k = 971 ∧ 2 * m < (2 ^ 54 - 1) * 2 ^ k

theorem RoundsFinite.decreaseExponent {m : Nat} {e : Int} (h : RoundsFinite m e) (t : Int) :
    RoundsFinite (decreaseExponent m e t).1 (decreaseExponent m e t).2 := by
  obtain ⟨k, hk, hm⟩ := h
  simp only [UnpackedFloat.decreaseExponent]
  generalize (e - t).toNat = a
  refine ⟨k + a, by omega, ?_⟩
  rw [Nat.shiftLeft_eq, Nat.pow_add, ← Nat.mul_assoc, ← Nat.mul_assoc]
  exact Nat.mul_lt_mul_of_pos_right hm (Nat.two_pow_pos a)

theorem targetExponent_binary64 (m : Nat) (e : Int) :
    Format.binary64.targetExponent (totalExponent m e) = max (m.log2 + e - 52) (-1074) := by
  have hbits : Format.binary64.mantissaBits = 53 := by decide
  have hleast : Format.binary64.minExponent = -1074 := by decide
  rw [Format.targetExponent, hbits, hleast, totalExponent]
  omega

theorem log2_le_of_lt {m n : Nat} (h : m < 2 ^ (n + 1)) : m.log2 ≤ n := by
  by_cases hm : m = 0
  · rw [hm, Nat.log2_zero]
    exact Nat.zero_le n
  · exact Nat.le_of_lt_succ ((Nat.log2_lt hm).2 h)

/-- The exponent after both shifts of rounding is one of a finite number. -/
theorem RoundsFinite.exponent_le {m : Nat} {e : Int} (h : RoundsFinite m e) :
    (shiftToTargetExponent Format.binary64
      (shiftToTargetExponent Format.binary64 m e .exact).1.roundedMantissa
      (shiftToTargetExponent Format.binary64 m e .exact).2 .exact).2 ≤ 971 := by
  obtain ⟨k, hk, hm⟩ := h
  simp only [shiftToTargetExponent, shiftToExponent, targetExponent_binary64]
  generalize hs : (max ((m.log2 : Int) + e - 52) (-1074) - e).toNat = s
  have hround := roundedMantissa_shiftRight_le m s
  generalize (ExtendedMantissa.ofMantissaAndAccuracy m .exact >>> s).roundedMantissa = r at hround ⊢
  have hlog : m.log2 ≤ 52 + k := by
    refine log2_le_of_lt ?_
    have hpow : 2 ^ (52 + k + 1) = 2 ^ 53 * 2 ^ k := by
      rw [← Nat.pow_add]
      congr 1
      omega
    omega
  have hsk : s ≤ k := by omega
  have hshift : m < 2 ^ (53 + s) :=
    lt_of_lt_of_le Nat.lt_log2_self (Nat.pow_le_pow_right (by decide) (by omega))
  have hquotient : 2 * m / 2 ^ s < 2 ^ 54 := by
    refine Nat.div_lt_of_lt_mul ?_
    have hpow : 2 ^ (53 + s) = 2 ^ s * 2 ^ 53 := by rw [← Nat.pow_add, Nat.add_comm]
    omega
  by_cases hlast : s = k
  · -- there is no room for a carry, but the mantissa is not rounded up to a power of two
    have hquotient' : 2 * m / 2 ^ s < 2 ^ 54 - 1 := by
      rw [hlast]
      exact Nat.div_lt_of_lt_mul (hm.trans_eq (Nat.mul_comm ..))
    have hr : r.log2 ≤ 52 := log2_le_of_lt (by omega)
    omega
  · have hr : r.log2 ≤ 53 := log2_le_of_lt (by omega)
    omega

theorem RoundsFinite.packsFinite_round {m : Nat} {e : Int} (h : RoundsFinite m e) (s : Sign) :
    PacksFinite (UnpackedFloat.round Format.binary64 s m e) := by
  have hexponent := (h.decreaseExponent
    (Format.binary64.targetExponent (totalExponent m e))).exponent_le
  simp only [UnpackedFloat.round, roundWithAccuracy]
  split
  · exact packsFinite_zero s
  · exact packsFinite_finite hexponent

theorem RoundsFinite.packsFinite_normalize {m e : Int} (h : RoundsFinite m.natAbs e) (s : Sign) :
    PacksFinite (UnpackedFloat.normalize Format.binary64 m e s) := by
  unfold UnpackedFloat.normalize
  split
  · rename_i hneg
    have hlt : m < 0 := Int.compare_eq_lt.1 hneg
    have habs : (-m).toNat = m.natAbs := by omega
    rw [habs]
    exact h.packsFinite_round _
  · exact packsFinite_zero s
  · rename_i hpos
    have hlt : 0 < m := Int.compare_eq_gt.1 hpos
    have habs : m.toNat = m.natAbs := by omega
    rw [habs]
    exact h.packsFinite_round _

/-! ### Sums -/

theorem natAbs_apply (s : Sign) (m : Nat) : (s.apply m).natAbs = m := by
  cases s
  · exact (Int.natAbs_neg _).trans (Int.natAbs_natCast m)
  · exact Int.natAbs_natCast m

/-- A finite magnitude and a small one, brought to a common exponent, have a sum that is rounded to
a finite number. -/
theorem roundsFinite_add {m m' : Nat} {e e' : Int} (hm : m < 2 ^ 53) (he : e ≤ 971)
    (hm' : m' < 2 ^ 53) (he' : e' ≤ 0) {sum : Int}
    (hsum : sum.natAbs ≤ (decreaseExponent m e (min e e')).1 +
      (decreaseExponent m' e' (min e e')).1) : RoundsFinite sum.natAbs (min e e') := by
  obtain ⟨a, ha⟩ : ∃ a : Nat, (e - min e e').toNat = a := ⟨_, rfl⟩
  obtain ⟨b, hb⟩ : ∃ b : Nat, (e' - min e e').toNat = b := ⟨_, rfl⟩
  obtain ⟨k, hk⟩ : ∃ k : Nat, min e e' + k = 971 := ⟨(971 - min e e').toNat, by omega⟩
  simp only [UnpackedFloat.decreaseExponent, ha, hb, Nat.shiftLeft_eq] at hsum
  have hfirst : m * 2 ^ a ≤ (2 ^ 53 - 1) * 2 ^ k :=
    Nat.mul_le_mul (by omega) (Nat.pow_le_pow_right (by decide) (by omega))
  have hsecond : m' * 2 ^ b < 2 ^ 53 * 2 ^ b :=
    Nat.mul_lt_mul_of_pos_right hm' (Nat.two_pow_pos b)
  have hsmall : 2 ^ 54 * 2 ^ b ≤ 2 ^ k := by
    rw [← Nat.pow_add]
    exact Nat.pow_le_pow_right (by decide) (by omega)
  exact ⟨k, hk, by omega⟩

theorem packsFinite_add {x y : UnpackedFloat} (hx : Bounded 971 x) (hy : Bounded 0 y) :
    PacksFinite (UnpackedFloat.add Format.binary64 x y) := by
  have hy' : Bounded 971 y := hy.mono (by decide)
  cases x with
  | zero s =>
    cases y with
    | zero s' =>
      rw [UnpackedFloat.add]
      split
      · exact packsFinite_zero s
      · exact packsFinite_zero _
    | finite => exact hy'.packsFinite
    | _ => exact hy.elim
  | finite s m e hpos =>
    cases y with
    | zero => exact hx.packsFinite
    | finite s' m' e' hpos' =>
      refine RoundsFinite.packsFinite_normalize (roundsFinite_add hx.1 hx.2 hy.1 hy.2 ?_) _
      refine (Int.natAbs_add_le _ _).trans ?_
      rw [natAbs_apply, natAbs_apply]
      exact Nat.le_refl _
    | _ => exact hy.elim
  | _ => exact hx.elim

/-- A difference is a sum with the opposite number. -/
theorem sub_eq_add_neg (x y : UnpackedFloat) :
    UnpackedFloat.sub Format.binary64 x y = UnpackedFloat.add Format.binary64 x y.neg := by
  cases x with
  | finite s m e hpos =>
    cases y with
    | finite s' m' e' hpos' =>
      have hneg : ∀ n : Int, (-s').apply n = -s'.apply n := by
        intro n
        cases s'
        · exact (Int.neg_neg n).symm
        · rfl
      simp only [UnpackedFloat.sub, UnpackedFloat.add, UnpackedFloat.neg, hneg, Int.sub_eq_add_neg]
    | _ => rfl
  | _ => cases y <;> rfl

/-! ### Numbers -/

/-- A number whose exponent field is not that of infinity is bounded by its exponent field. -/
theorem bounded_unpack {b : BitVec Format.binary64.numBits} (h : unpackExponent b ≠ -1#_) :
    Bounded (max ((unpackExponent b).toNat - 1075) (-1074))
      (UnpackedFloat.unpack Format.binary64 b) := by
  have hM : (unpackMantissa b).toNat < 2 ^ 52 := (unpackMantissa b).isLt
  have hbias : Format.binary64.exponentBias = 1023 := by decide
  rw [UnpackedFloat.unpack, hbias, if_neg h]
  by_cases hzero : unpackExponent b = 0#_
  · rw [if_pos hzero]
    split
    · exact trivial
    · refine ⟨hM.trans (by decide), ?_⟩
      rw [hzero]
      decide
  · have happ := toNat_implicit_append b
    rw [if_neg hzero]
    exact ⟨by omega, le_max_left ..⟩

theorem isFinite_iff_exponent (x : Float) :
    x.isFinite ↔ @unpackExponent Format.binary64 x.toBits.toBitVec ≠ -1#_ := by
  rw [isFinite_iff, Ne, exponent_eq_max_iff, not_le]
  rfl

theorem bounded_of_isFinite {x : Float} (h : x.isFinite) :
    Bounded 971 (UnpackedFloat.unpack Format.binary64 x.toBits.toBitVec) := by
  have hE := (isFinite_iff_exponent x).1 h
  have hlt := exponent_lt_of_ne hE
  exact (bounded_unpack hE).mono (by omega)

/-- A number below `2^53`. -/
def IsSmall (x : Float) : Prop := word x < 1076 * octave

theorem IsSmall.bounded {x : Float} (h : IsSmall x) :
    Bounded 0 (UnpackedFloat.unpack Format.binary64 x.toBits.toBitVec) := by
  have hfinite : x.isFinite := (isFinite_iff x).2 (h.trans (by decide))
  have hfields : word x =
      (@unpackExponent Format.binary64 x.toBits.toBitVec).toNat * octave +
        (@unpackMantissa Format.binary64 x.toBits.toBitVec).toNat :=
    toNat_mod_signBit x.toBits.toBitVec
  rw [IsSmall, hfields] at h
  have hE := Nat.lt_of_mul_lt_mul_right (Nat.lt_of_le_of_lt (Nat.le_add_right ..) h)
  exact (bounded_unpack ((isFinite_iff_exponent x).1 hfinite)).mono (by omega)

section Sums

variable {x y : Float} (hx : x.isFinite) (hy : IsSmall y)
include hx hy

/-- **The sum of a finite and a small number is finite.** -/
theorem isFinite_add : (x + y).isFinite :=
  (isFinite_iff_exponent _).2 (packsFinite_add (bounded_of_isFinite hx) hy.bounded)

/-- **The difference of a finite and a small number is finite.** -/
theorem isFinite_sub : (x - y).isFinite := by
  have hsum := packsFinite_add (bounded_of_isFinite hx) hy.bounded.neg
  rw [← sub_eq_add_neg] at hsum
  exact (isFinite_iff_exponent _).2 hsum

end Sums

end CircuitExchange.Decimal
