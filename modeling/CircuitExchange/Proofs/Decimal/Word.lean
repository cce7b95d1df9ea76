import Mathlib
import CircuitExchange.Decimal.Binary64

/-!
Double precision numbers and their words. A number that is one is given by its sign and the word of
its magnitude, and nothing is lost on the way there and back.

* `ofWord_isNegative_word`: a number is the number of its sign and word.
* `isFinite_iff`: the finite numbers are those with a word below the word of infinity.
* `neg_ofWord`: negation changes the sign and keeps the word.
-/

namespace CircuitExchange.Decimal

open Float.Model Float.Model.UnpackedFloat

/-! ### Fields of a packed number -/

section Fields

variable (b : BitVec Format.binary64.numBits)

theorem toBitVec_ofBitVec (v : BitVec 1) : (Sign.ofBitVec v).toBitVec = v := by
  revert v
  decide

theorem toNat_neg_ofBitVec (v : BitVec 1) :
    (-Sign.ofBitVec v).toBitVec.toNat = 1 - v.toNat := by
  revert v
  decide

/-- The fields of a packed number make up the number. -/
theorem packComponents_fields :
    packComponents Format.binary64 (Sign.ofBitVec (unpackSign b)) (unpackExponent b)
      (unpackMantissa b) = b := by
  simp only [packComponents, toBitVec_ofBitVec, unpackSign, unpackExponent, unpackMantissa,
    BitVec.extractLsb]
  ext i hi
  grind

/-- The word of a magnitude counts the exponent in octaves; the sign stands above it. -/
theorem toNat_packComponents (s : Sign) (e : BitVec Format.binary64.exponentBits)
    (m : BitVec Format.binary64.mantissaBitsWithoutImplicit) :
    (packComponents Format.binary64 s e m).toNat =
      s.toBitVec.toNat * signBit + (e.toNat * octave + m.toNat) := by
  simp only [packComponents, BitVec.toNat_append]
  rw [← Nat.shiftLeft_add_eq_or_of_lt e.isLt, ← Nat.shiftLeft_add_eq_or_of_lt m.isLt]
  simp only [Nat.shiftLeft_eq, octave, signBit]
  omega

/-- The implicit bit stands above the stored mantissa. -/
theorem toNat_implicit_append :
    (1#1 ++ unpackMantissa b).toNat = 2 ^ 52 + (unpackMantissa b).toNat := by
  rw [BitVec.toNat_append, ← Nat.shiftLeft_add_eq_or_of_lt (unpackMantissa b).isLt]
  simp [Nat.shiftLeft_eq]

variable {b} in
theorem exponent_lt_of_ne (h : unpackExponent b ≠ -1#_) :
    (unpackExponent b).toNat < 2 ^ 11 - 1 := by
  have hlt : (unpackExponent b).toNat < 2 ^ 11 := (unpackExponent b).isLt
  have hmax : (unpackExponent b).toNat ≠ 2 ^ 11 - 1 := fun heq =>
    h (BitVec.toNat_inj.1 (by simpa using heq))
  omega

/-- Not the pattern of a value that is no number. -/
def IsNumber : Prop := unpackExponent b = -1#_ → unpackMantissa b = 0#_

/-- Unpacking a number finds a magnitude that packs, under either sign, to the same fields. -/
theorem exists_unpack_eq (h : IsNumber b) :
    ∃ f : Sign → UnpackedFloat,
      UnpackedFloat.unpack Format.binary64 b = f (Sign.ofBitVec (unpackSign b)) ∧
      (∀ s, (f s).neg = f (-s)) ∧
      (∀ s, UnpackedFloat.pack Format.binary64 (f s) =
        packComponents Format.binary64 s (unpackExponent b) (unpackMantissa b)) ∧
      ∀ s, (f s).isFinite = decide (unpackExponent b ≠ -1#_) := by
  have hM : (unpackMantissa b).toNat < 2 ^ 52 := (unpackMantissa b).isLt
  have hE : (unpackExponent b).toNat < 2 ^ 11 := (unpackExponent b).isLt
  have hbits : Format.binary64.mantissaBits = 53 := by decide
  have hbias : Format.binary64.exponentBias = 1023 := by decide
  by_cases hinf : unpackExponent b = -1#_
  · refine ⟨.infinity, ?_, fun _ => rfl, fun s => ?_, fun s => ?_⟩
    · simp [UnpackedFloat.unpack, hinf, h hinf]
    · rw [hinf, h hinf]
      rfl
    · simp [hinf, UnpackedFloat.isFinite]
  · have hfin : decide (unpackExponent b ≠ -1#_) = true := decide_eq_true hinf
    by_cases hzero : unpackExponent b = 0#_
    · by_cases hmant : unpackMantissa b = 0#_
      · refine ⟨.zero, ?_, fun _ => rfl, fun s => ?_, fun s => hfin.symm⟩
        · rw [UnpackedFloat.unpack, if_neg hinf, if_pos hzero, dif_pos hmant]
        · rw [hzero, hmant]
          rfl
      · -- a subnormal magnitude has the least exponent and no implicit bit
        have hpos : 0 < (unpackMantissa b).toNat := by
          simpa [BitVec.toNat_pos, BitVec.pos_iff_ne_zero] using hmant
        have hlog : (unpackMantissa b).toNat.log2 < 52 := (Nat.log2_lt hpos.ne').2 hM
        refine ⟨fun s => .finite s (unpackMantissa b).toNat (-1074) hpos, ?_, fun _ => rfl,
          fun s => ?_, fun s => hfin.symm⟩
        · rw [UnpackedFloat.unpack, if_neg hinf, if_pos hzero, dif_neg hmant, hzero]
          rfl
        · rw [UnpackedFloat.pack, hbias, hbits, if_neg (by decide), if_neg (by omega), hzero]
          simp
    · -- a normal magnitude keeps its exponent, and packing drops the implicit bit again
      have hEmax := exponent_lt_of_ne hinf
      have happ := toNat_implicit_append b
      have hlog : (2 ^ 52 + (unpackMantissa b).toNat).log2 = 52 :=
        (Nat.log2_eq_iff (by omega)).2 ⟨by omega, by omega⟩
      have hbiased : (((unpackExponent b).toNat : Int) - (1023 + 52 : Nat) + (1023 : Nat) +
          (52 : Nat)).toNat = (unpackExponent b).toNat := by omega
      refine ⟨fun s => .finite s (2 ^ 52 + (unpackMantissa b).toNat)
        ((unpackExponent b).toNat - (1023 + 52 : Nat)) (by omega), ?_, fun _ => rfl,
        fun s => ?_, fun s => hfin.symm⟩
      · simp only [UnpackedFloat.unpack, if_neg hinf, if_neg hzero, happ, hbias]
        rfl
      · simp only [UnpackedFloat.pack, hbias, hbits, hlog, hbiased]
        rw [if_neg (by omega), if_pos trivial, BitVec.ofNat_toNat, BitVec.setWidth_eq]
        congr 1
        rw [← BitVec.toNat_inj, BitVec.toNat_ofNat]
        omega

/-- The word and the sign of a pattern are its fields. -/
theorem toNat_eq_fields :
    b.toNat = (unpackSign b).toNat * signBit +
      ((unpackExponent b).toNat * octave + (unpackMantissa b).toNat) := by
  conv_lhs => rw [← packComponents_fields b]
  rw [toNat_packComponents, toBitVec_ofBitVec]

theorem fields_lt :
    (unpackExponent b).toNat * octave + (unpackMantissa b).toNat < signBit := by
  have hM : (unpackMantissa b).toNat < 2 ^ 52 := (unpackMantissa b).isLt
  have hE : (unpackExponent b).toNat < 2 ^ 11 := (unpackExponent b).isLt
  simp only [octave, signBit]
  omega

theorem toNat_mod_signBit :
    b.toNat % signBit = (unpackExponent b).toNat * octave + (unpackMantissa b).toNat := by
  rw [toNat_eq_fields b, Nat.mul_comm, Nat.mul_add_mod, Nat.mod_eq_of_lt (fields_lt b)]

theorem toNat_div_signBit : b.toNat / signBit = (unpackSign b).toNat := by
  rw [toNat_eq_fields b, Nat.mul_comm, Nat.mul_add_div (by decide),
    Nat.div_eq_of_lt (fields_lt b), Nat.add_zero]

theorem exponent_eq_max_iff : unpackExponent b = -1#_ ↔ infinityWord ≤ b.toNat % signBit := by
  have hM : (unpackMantissa b).toNat < 2 ^ 52 := (unpackMantissa b).isLt
  have hE : (unpackExponent b).toNat < 2 ^ 11 := (unpackExponent b).isLt
  rw [toNat_mod_signBit, ← BitVec.toNat_inj]
  simp only [BitVec.neg_one_eq_allOnes, BitVec.toNat_allOnes, infinityWord, octave]
  omega

theorem isNumber_iff : IsNumber b ↔ b.toNat % signBit ≤ infinityWord := by
  have hM : (unpackMantissa b).toNat < 2 ^ 52 := (unpackMantissa b).isLt
  have hE : (unpackExponent b).toNat < 2 ^ 11 := (unpackExponent b).isLt
  rw [IsNumber, toNat_mod_signBit, ← BitVec.toNat_inj, ← BitVec.toNat_inj]
  simp only [BitVec.neg_one_eq_allOnes, BitVec.toNat_allOnes, BitVec.toNat_zero, infinityWord,
    octave]
  omega

end Fields

/-! ### Numbers -/

/-- Numbers with the same pattern are the same. -/
theorem eq_of_toBits_eq {x y : Float} (h : x.toBits.toNat = y.toBits.toNat) : x = y := by
  obtain ⟨⟨bx, hx⟩⟩ := x
  obtain ⟨⟨by', hy⟩⟩ := y
  obtain rfl : bx = by' := UInt64.toNat_inj.1 h
  rfl

theorem toBits_ofBits {b : UInt64} (h : b.toNat % signBit ≤ infinityWord) :
    (Float.ofBits b).toBits = b := by
  obtain ⟨f, hf, -, hpack, -⟩ := exists_unpack_eq b.toBitVec ((isNumber_iff _).2 h)
  show UInt64.ofBitVec (UnpackedFloat.pack Format.binary64
    (UnpackedFloat.unpack Format.binary64 b.toBitVec)) = b
  rw [hf, hpack, packComponents_fields]

/-- The pattern of a sign and a word up to that of infinity. -/
def pattern (negative : Bool) (k : Nat) : Nat := if negative then signBit + k else k

theorem pattern_mod (negative : Bool) {k : Nat} (h : k ≤ infinityWord) :
    pattern negative k % signBit = k := by
  have : k < signBit := lt_of_le_of_lt h (by decide)
  unfold pattern
  split
  · rw [Nat.add_mod_left, Nat.mod_eq_of_lt this]
  · exact Nat.mod_eq_of_lt this

theorem toNat_toBits_ofWord (negative : Bool) {k : Nat} (h : k ≤ infinityWord) :
    (ofWord negative k).toBits.toNat = pattern negative k := by
  have hlt : pattern negative k < 2 ^ 64 := by
    simp only [pattern, signBit, infinityWord, octave] at *
    split <;> omega
  have hnat : (UInt64.ofNat (pattern negative k)).toNat = pattern negative k :=
    UInt64.toNat_ofNat_of_lt' hlt
  have hmod := pattern_mod negative h
  simp only [ofWord, Nat.min_eq_left h]
  show (Float.ofBits (UInt64.ofNat (pattern negative k))).toBits.toNat = _
  rw [toBits_ofBits (by rw [hnat, hmod]; exact h), hnat]

theorem pattern_div {negative : Bool} {k : Nat} (h : k ≤ infinityWord) :
    pattern negative k / signBit = negative.toNat := by
  have : k < signBit := lt_of_le_of_lt h (by decide)
  cases negative
  · exact Nat.div_eq_of_lt this
  · show (signBit + k) / signBit = 1
    rw [Nat.add_div_left _ (by decide), Nat.div_eq_of_lt this]

theorem pattern_isNegative_word (x : Float) : pattern (isNegative x) (word x) = x.toBits.toNat := by
  have hlt : x.toBits.toNat < 2 * signBit := x.toBits.toNat_lt
  have hmod : x.toBits.toNat % signBit =
      if signBit ≤ x.toBits.toNat then x.toBits.toNat - signBit else x.toBits.toNat := by
    split
    · rw [Nat.mod_eq_sub_mod ‹_›, Nat.mod_eq_of_lt (by omega)]
    · exact Nat.mod_eq_of_lt (by omega)
  simp only [pattern, isNegative, word, decide_eq_true_eq, hmod]
  split <;> omega

/-- A number is the number of its sign and word. -/
theorem ofWord_isNegative_word {x : Float} (h : word x ≤ infinityWord) :
    ofWord (isNegative x) (word x) = x := by
  apply eq_of_toBits_eq
  rw [toNat_toBits_ofWord _ h, pattern_isNegative_word]

theorem word_ofWord (negative : Bool) {k : Nat} (h : k ≤ infinityWord) :
    word (ofWord negative k) = k := by
  rw [word, toNat_toBits_ofWord _ h, pattern_mod _ h]

/-- The finite numbers are those with a word below the word of infinity. -/
theorem isFinite_iff (x : Float) : x.isFinite ↔ word x < infinityWord := by
  by_cases h : IsNumber x.toBits.toBitVec
  · obtain ⟨f, hf, -, -, hfin⟩ := exists_unpack_eq x.toBits.toBitVec h
    have hx : x.isFinite = (UnpackedFloat.unpack Format.binary64 x.toBits.toBitVec).isFinite := rfl
    rw [hx, hf, hfin, decide_eq_true_eq, Ne, exponent_eq_max_iff, not_le]
    rfl
  · have hnan : ¬ word x ≤ infinityWord := fun hle => h ((isNumber_iff _).2 hle)
    obtain ⟨hexp, hmant⟩ := Classical.not_imp.1 h
    have hx : x.isFinite = false := by
      show (UnpackedFloat.unpack Format.binary64 x.toBits.toBitVec).isFinite = false
      rw [UnpackedFloat.unpack, if_pos hexp, if_neg hmant]
      rfl
    rw [hx]
    simp only [Bool.false_eq_true, false_iff]
    omega

theorem isFinite_ofWord (negative : Bool) {k : Nat} (h : k ≤ infinityWord) :
    (ofWord negative k).isFinite ↔ k < infinityWord := by
  rw [isFinite_iff, word_ofWord negative h]

/-- Negation changes the sign and keeps the word. -/
theorem neg_ofWord (negative : Bool) {k : Nat} (h : k ≤ infinityWord) :
    -ofWord negative k = ofWord (!negative) k := by
  set x := ofWord negative k with hx
  have hbits : x.toBits.toNat = pattern negative k := toNat_toBits_ofWord negative h
  have hnum : IsNumber x.toBits.toBitVec :=
    (isNumber_iff _).2 (by
      show x.toBits.toNat % signBit ≤ infinityWord
      rw [hbits, pattern_mod _ h]
      exact h)
  obtain ⟨f, hf, hneg, hpack, -⟩ := exists_unpack_eq x.toBits.toBitVec hnum
  have hval : (-x).toBits.toBitVec =
      UnpackedFloat.pack Format.binary64
        (UnpackedFloat.unpack Format.binary64 x.toBits.toBitVec).neg := rfl
  rw [hf, hneg, hpack] at hval
  have hword : x.toBits.toBitVec.toNat % signBit = k := by
    show x.toBits.toNat % signBit = k
    rw [hbits, pattern_mod _ h]
  have hsign : (@unpackSign Format.binary64 x.toBits.toBitVec).toNat = negative.toNat := by
    rw [← toNat_div_signBit]
    show x.toBits.toNat / signBit = _
    rw [hbits, pattern_div h]
  apply eq_of_toBits_eq
  rw [toNat_toBits_ofWord _ h, ← UInt64.toNat_toBitVec, hval, toNat_packComponents,
    ← toNat_mod_signBit, hword, toNat_neg_ofBitVec, hsign, pattern]
  cases negative <;> simp

end CircuitExchange.Decimal
