import Mathlib
import CircuitExchange.Proofs.Decimal.Product
import CircuitExchange.Proofs.Decimal.Sum

/-!
Doubling and halving double precision numbers. A mantissa that fits is not rounded, so the double of
a number is exact unless it leaves the range, and its half is the number again.

* `Canonical`: the mantissas and exponents that numbers have.
* `roundWithAccuracy_canonical`: rounding only takes off the zeros after such a mantissa.
* `unpack_normal`, `unpack_subnormal`, `unpack_pack`: such a number is packed as itself.
* `half_double`: the half of a double that is finite is the number that was doubled.
-/

namespace CircuitExchange.Decimal

open Float.Model Float.Model.UnpackedFloat

/-! ### Rounding a mantissa that fits -/

/-- The mantissa has as many bits as there are, or fewer with the least exponent. -/
structure Canonical (m : Nat) (e : Int) : Prop where
  lt : m < 2 ^ 53
  le : -1074 ≤ e
  normal : e ≠ -1074 → 2 ^ 52 ≤ m

theorem log2_of_le_of_lt {m : Nat} (hle : 2 ^ 52 ≤ m) (hlt : m < 2 ^ 53) : m.log2 = 52 :=
  (Nat.log2_eq_iff (by omega)).2 ⟨hle, hlt⟩

theorem log2_mul_two_pow {m : Nat} (hpos : 0 < m) (a : Nat) : (m * 2 ^ a).log2 = m.log2 + a := by
  induction a with
  | zero => rw [Nat.pow_zero, Nat.mul_one, Nat.add_zero]
  | succ a ih =>
    have hne : m * 2 ^ a ≠ 0 := (Nat.mul_pos hpos (Nat.two_pow_pos a)).ne'
    rw [Nat.pow_succ', Nat.mul_left_comm, Nat.log2_two_mul hne, ih, Nat.add_assoc]

/-- The exponent of such a number is the one that rounding aims at. -/
theorem Canonical.max_eq {m : Nat} {e : Int} (h : Canonical m e) :
    max ((m.log2 : Int) + e - 52) (-1074) = e := by
  have hlog : m.log2 ≤ 52 := log2_le_of_lt h.lt
  by_cases he : e = -1074
  · omega
  · have hlog' := log2_of_le_of_lt (h.normal he) h.lt
    have hle := h.le
    omega

/-- Shifting out zeros leaves nothing to round. -/
theorem shiftRight_exact (m k : Nat) :
    ExtendedMantissa.ofMantissaAndAccuracy (m * 2 ^ k) .exact >>> k =
      ExtendedMantissa.ofMantissaAndAccuracy m .exact := by
  induction k generalizing m with
  | zero =>
    rw [Nat.pow_zero, Nat.mul_one]
    rfl
  | succ k ih =>
    have hstep : ExtendedMantissa.ofMantissaAndAccuracy (m * 2 ^ (k + 1)) .exact >>> (k + 1) =
        (ExtendedMantissa.ofMantissaAndAccuracy (m * 2 ^ (k + 1)) .exact >>> k).shiftRightOne := rfl
    rw [hstep, Nat.pow_succ', ← Nat.mul_assoc, ih]
    simp [ExtendedMantissa.shiftRightOne, ExtendedMantissa.ofMantissaAndAccuracy]

section Canonical

variable {m : Nat} {e : Int} (h : Canonical m e) (hpos : 0 < m)
include h hpos

theorem shiftToTargetExponent_canonical (a : Nat) :
    shiftToTargetExponent Format.binary64 (m * 2 ^ a) (e - a) .exact =
      (ExtendedMantissa.ofMantissaAndAccuracy m .exact, e) := by
  have htarget : max (((m * 2 ^ a).log2 : Int) + (e - a) - 52) (-1074) = e := by
    have hmax := h.max_eq
    rw [log2_mul_two_pow hpos]
    omega
  have hshift : (e - (e - (a : Int))).toNat = a := by omega
  simp only [shiftToTargetExponent, targetExponent_binary64, htarget, shiftToExponent, hshift,
    shiftRight_exact, Int.sub_add_cancel]

/-- **Rounding takes off the zeros after a mantissa that fits.** -/
theorem roundWithAccuracy_canonical (s : Sign) (a : Nat) :
    roundWithAccuracy Format.binary64 s (m * 2 ^ a) (e - a) .exact = .finite s m e hpos := by
  have hagain := shiftToTargetExponent_canonical h hpos 0
  rw [Nat.pow_zero, Nat.mul_one, Int.natCast_zero, Int.sub_zero] at hagain
  have hround : (ExtendedMantissa.ofMantissaAndAccuracy m .exact).roundedMantissa = m := rfl
  simp only [roundWithAccuracy, shiftToTargetExponent_canonical h hpos a, hround, hagain]
  exact dif_neg hpos.ne'

end Canonical

/-! ### Packing -/

section Packing

variable {m : Nat}

/-- A mantissa with all its bits is unpacked from its last bits and an exponent field between those
of zero and infinity. -/
theorem unpack_normal {k : Nat} (hle : 2 ^ 52 ≤ m) (hlt : m < 2 ^ 53) (hk : 0 < k)
    (hk' : k < 2 ^ 11 - 1) (s : Sign) (hpos : 0 < m) :
    UnpackedFloat.unpack Format.binary64
        (packComponents Format.binary64 s (BitVec.ofNat 11 k) (BitVec.ofNat 52 m)) =
      .finite s m (k - 1075) hpos := by
  have hbias : Format.binary64.exponentBias = 1023 := by decide
  have hexponent : (BitVec.ofNat 11 k).toNat = k := by
    rw [BitVec.toNat_ofNat]
    omega
  have hmantissa : (1#1 ++ BitVec.ofNat 52 m).toNat = m := by
    have hrest := (BitVec.ofNat 52 m).isLt
    rw [BitVec.toNat_append, ← Nat.shiftLeft_add_eq_or_of_lt hrest, BitVec.toNat_ofNat]
    simp only [BitVec.toNat_ofNat, Nat.shiftLeft_eq]
    omega
  have hmax : BitVec.ofNat 11 k ≠ -1#11 := by
    rw [Ne, ← BitVec.toNat_inj, hexponent]
    simp only [BitVec.neg_one_eq_allOnes, BitVec.toNat_allOnes]
    omega
  have hzero : BitVec.ofNat 11 k ≠ 0#11 := by
    rw [Ne, ← BitVec.toNat_inj, hexponent, BitVec.toNat_zero]
    exact hk.ne'
  rw [UnpackedFloat.unpack]
  simp only [unpackMantissa_packComponents, unpackExponent_packComponents,
    unpackSign_packComponents, Sign.ofBitVec_toBitVec, if_neg hmax, if_neg hzero, hmantissa,
    hexponent, hbias]
  rfl

/-- A mantissa with fewer bits is unpacked from them and the exponent field of zero. -/
theorem unpack_subnormal (hlt : m < 2 ^ 52) (s : Sign) (hpos : 0 < m) :
    UnpackedFloat.unpack Format.binary64
        (packComponents Format.binary64 s 0#11 (BitVec.ofNat 52 m)) =
      .finite s m (-1074) hpos := by
  have hbias : Format.binary64.exponentBias = 1023 := by decide
  have hmantissa : (BitVec.ofNat 52 m).toNat = m := by
    rw [BitVec.toNat_ofNat]
    omega
  have hzero : BitVec.ofNat 52 m ≠ 0#52 := by
    rw [Ne, ← BitVec.toNat_inj, hmantissa]
    exact hpos.ne'
  have hmax : (0#11 : BitVec 11) ≠ -1#11 := by decide
  rw [UnpackedFloat.unpack]
  simp only [unpackMantissa_packComponents, unpackExponent_packComponents,
    unpackSign_packComponents, Sign.ofBitVec_toBitVec, if_neg hmax, if_pos, dif_neg hzero,
    hmantissa, hbias]
  rfl

/-- **Such a number is packed as itself**, if its exponent is in the range. -/
theorem unpack_pack {e : Int} (h : Canonical m e) (hpos : 0 < m) (he : e ≤ 971) (s : Sign) :
    UnpackedFloat.unpack Format.binary64 (UnpackedFloat.pack Format.binary64 (.finite s m e hpos)) =
      .finite s m e hpos := by
  have hbits : Format.binary64.mantissaBits = 53 := by decide
  have hbias : Format.binary64.exponentBias = 1023 := by decide
  have hle := h.le
  have hbiased : ¬ 2 ^ 11 ≤ (e + (1023 : Nat) + (52 : Nat)).toNat + 1 := by omega
  simp only [UnpackedFloat.pack, hbits, hbias]
  rw [if_neg hbiased]
  by_cases hnormal : 2 ^ 52 ≤ m
  · have hlog := log2_of_le_of_lt hnormal h.lt
    rw [if_pos (by omega), unpack_normal hnormal h.lt (by omega) (by omega) s hpos]
    congr 1
    omega
  · obtain rfl : e = -1074 := by
      by_contra hne
      exact hnormal (h.normal hne)
    have hlt := Nat.lt_of_not_le hnormal
    have hlog : m.log2 < 52 := (Nat.log2_lt hpos.ne').2 hlt
    rw [if_neg (by omega)]
    exact unpack_subnormal hlt s hpos

end Packing

/-! ### Numbers and their parts -/

theorem canonical_parts {x : Float} {s : Sign} {m : Nat} {e : Int} {hpos : 0 < m}
    (h : parts x = .finite s m e hpos) : Canonical m e := by
  have hbias : Format.binary64.exponentBias = 1023 := by decide
  have hM : (@unpackMantissa Format.binary64 x.toBits.toBitVec).toNat < 2 ^ 52 :=
    (unpackMantissa _).isLt
  change UnpackedFloat.unpack Format.binary64 x.toBits.toBitVec = _ at h
  rw [UnpackedFloat.unpack, hbias] at h
  split at h
  · split at h <;> cases h
  · split at h
    · rename_i hzero
      split at h
      · cases h
      · obtain ⟨-, rfl, rfl⟩ := UnpackedFloat.finite.inj h
        rw [hzero]
        exact ⟨hM.trans (by decide), by decide, fun hne => absurd rfl hne⟩
    · rename_i hzero
      obtain ⟨-, rfl, rfl⟩ := UnpackedFloat.finite.inj h
      have happ := toNat_implicit_append x.toBits.toBitVec
      have hexponent : (@unpackExponent Format.binary64 x.toBits.toBitVec).toNat ≠ 0 :=
        fun heq => hzero (BitVec.toNat_inj.1 heq)
      have hwidth : Format.binary64.mantissaBitsWithoutImplicit = 52 := by decide
      exact ⟨by omega, by omega, fun _ => by omega⟩

/-- A number is packed from its parts. -/
theorem ofModel_pack_parts (x : Float) : Float.ofModel (Float.Model.pack (parts x)) = x :=
  Float.toBits_inj.1 (UInt64.toBitVec_inj.1 (pack_unpack_of_valid x.toModel.valid))

theorem PacksFinite.exponent_le {s : Sign} {m : Nat} {e : Int} {hpos : 0 < m}
    (h : PacksFinite (.finite s m e hpos)) : e ≤ 971 := by
  by_contra hlt
  have hbias : Format.binary64.exponentBias = 1023 := by decide
  have hbiased : 2 ^ 11 ≤ (e + (1023 : Nat) + (52 : Nat)).toNat + 1 := by omega
  rw [PacksFinite, UnpackedFloat.pack, hbias, if_pos hbiased, packedInfinity,
    unpackExponent_packComponents] at h
  exact h rfl

/-! ### Doubling and halving -/

/-- A quotient by two that is whole is rounded to its mantissa. -/
theorem div_two {m m' : Nat} {e e' : Int} (h : Canonical m e) (hpos : 0 < m) (hpos' : 0 < m')
    (s : Sign) {a n : Nat}
    (htarget : min (e' + 51) (max ((m'.log2 : Int) + e' - 54) (-1074)) = e - a)
    (hshift : e' + 51 - (e - a) = n) (hquotient : m' * 2 ^ n = m * 2 ^ a * 2 ^ 52) :
    UnpackedFloat.div Format.binary64 (.finite s m' e' hpos') (parts Scalar.two) =
      .finite s m e hpos := by
  have hsign : s / .positive = s := by cases s <;> rfl
  have hcore : divCore Format.binary64 m' e' (2 ^ 52) (-51) = (m * 2 ^ a, e - a, .exact) := by
    have hexponent : min (e' - -51) (Format.binary64.targetExponent
        (totalExponent m' e' - totalExponent (2 ^ 52) (-51))) = e - a := by
      have htotal : Format.binary64.targetExponent
          (totalExponent m' e' - totalExponent (2 ^ 52) (-51)) =
            max ((m'.log2 : Int) + e' - 54) (-1074) := by
        have hbits : Format.binary64.mantissaBits = 53 := by decide
        have hleast : Format.binary64.minExponent = -1074 := by decide
        have hlog : (2 ^ 52 : Nat).log2 = 52 := Nat.log2_two_pow
        rw [Format.targetExponent, hbits, hleast, totalExponent, totalExponent, hlog]
        omega
      rw [htotal]
      omega
    have hn : (e' - -51 - (e - a)).toNat = n := by omega
    have hwhole : m' <<< n = m * 2 ^ a * 2 ^ 52 := by rw [Nat.shiftLeft_eq, hquotient]
    simp only [divCore, hexponent, hn, hwhole, Nat.mul_mod_left,
      Nat.mul_div_cancel _ (Nat.two_pow_pos 52)]
    rfl
  rw [parts_two]
  simp only [UnpackedFloat.div, hcore, hsign]
  exact roundWithAccuracy_canonical h hpos s a

/-- A product with two is rounded to its mantissa. -/
theorem mul_two {m m' : Nat} {e e' : Int} (h : Canonical m' e') (hpos : 0 < m) (hpos' : 0 < m')
    (s : Sign) {a : Nat} (hproduct : m * 2 ^ 52 = m' * 2 ^ a) (hexponent : e - 51 = e' - a) :
    UnpackedFloat.mul Format.binary64 (.finite s m e hpos) (parts Scalar.two) =
      .finite s m' e' hpos' := by
  have hsign : s * .positive = s := by cases s <;> rfl
  have hsum : e + -51 = e' - a := hexponent
  rw [parts_two]
  simp only [UnpackedFloat.mul, hproduct, hsum, hsign]
  exact roundWithAccuracy_canonical h hpos' s a

/-- A finite number has a double, and its half is the number. -/
theorem exists_double {m : Nat} {e : Int} (h : Canonical m e) (hpos : 0 < m) (s : Sign) :
    ∃ (m' : Nat) (e' : Int) (hpos' : 0 < m'), Canonical m' e' ∧
      UnpackedFloat.mul Format.binary64 (.finite s m e hpos) (parts Scalar.two) =
        .finite s m' e' hpos' ∧
      UnpackedFloat.div Format.binary64 (.finite s m' e' hpos') (parts Scalar.two) =
        .finite s m e hpos := by
  have hlt := h.lt
  have hle := h.le
  by_cases hnormal : 2 ^ 52 ≤ m
  · have hlog := log2_of_le_of_lt hnormal hlt
    have h' : Canonical m (e + 1) := ⟨hlt, by omega, fun _ => hnormal⟩
    refine ⟨m, e + 1, hpos, h', mul_two h' hpos hpos s rfl (by omega), ?_⟩
    -- The quotient has one bit more than fits, unless the exponent is the least.
    by_cases he : e = -1074
    · exact div_two (a := 0) (n := 52) h hpos hpos s (by omega) (by omega)
        (by rw [Nat.pow_zero, Nat.mul_one])
    · exact div_two (a := 1) (n := 53) h hpos hpos s (by omega) (by omega)
        (by rw [Nat.pow_succ', Nat.pow_one, Nat.mul_assoc])
  · obtain rfl : e = -1074 := by
      by_contra hne
      exact hnormal (h.normal hne)
    have hlog : m.log2 < 52 := (Nat.log2_lt hpos.ne').2 (Nat.lt_of_not_le hnormal)
    have hlog' : (2 * m).log2 = m.log2 + 1 := Nat.log2_two_mul hpos.ne'
    have h' : Canonical (2 * m) (-1074) := ⟨by omega, hle, fun hne => absurd rfl hne⟩
    have hpos' : 0 < 2 * m := by omega
    refine ⟨2 * m, -1074, hpos', h', mul_two (a := 51) h' hpos hpos' s (by omega) (by omega), ?_⟩
    exact div_two (a := 0) (n := 51) h hpos hpos' s (by omega) (by omega) (by omega)

theorem parts_product (x y : Float) :
    parts (x * y) = UnpackedFloat.unpack Format.binary64 (UnpackedFloat.pack Format.binary64
      (UnpackedFloat.mul Format.binary64 (parts x) (parts y))) :=
  rfl

theorem isFinite_product_iff (x y : Float) :
    (x * y).isFinite ↔ PacksFinite (UnpackedFloat.mul Format.binary64 (parts x) (parts y)) :=
  isFinite_iff_exponent (x * y)

theorem quotient_eq (x y : Float) :
    x / y = Float.ofModel (Float.Model.pack
      (UnpackedFloat.div Format.binary64 (parts x) (parts y))) :=
  rfl

/-- **The half of a double that is finite is the number that was doubled.** -/
theorem half_double {x : Float} (h : (x * Scalar.two : Float).isFinite) :
    x * Scalar.two / Scalar.two = x := by
  have hpacks := (isFinite_product_iff x Scalar.two).1 h
  suffices hparts : UnpackedFloat.div Format.binary64 (parts (x * Scalar.two)) (parts Scalar.two) =
      parts x by
    rw [quotient_eq, hparts, ofModel_pack_parts]
  rw [parts_product]
  cases hx : parts x with
  | finite s m e hpos =>
    obtain ⟨m', e', hpos', h', hmul, hdiv⟩ := exists_double (canonical_parts hx) hpos s
    rw [hx, hmul] at hpacks
    rw [hmul, unpack_pack h' hpos' hpacks.exponent_le, hdiv]
  | zero s =>
    rw [parts_two]
    cases s <;> rfl
  | infinity s =>
    rw [hx, parts_two] at hpacks
    cases s <;> exact absurd rfl hpacks
  | notANumber =>
    rw [hx] at hpacks
    exact absurd rfl hpacks

end CircuitExchange.Decimal
