import Mathlib
import CircuitExchange.Moment.Conversion

/-!
Products of double precision numbers. A product does not depend on the order of its factors, and
only equal factors other than zero are found to be equal, so the formula that replaces a product
with π has the same value.

* `product_comm`: the factors may be exchanged.
* `eval_angle_eq_product`: the exported angle of a number of half-turns is their product with π.
-/

namespace CircuitExchange.Decimal

open Float.Model Float.Model.UnpackedFloat

/-- A number taken apart into its sign, its mantissa and its exponent. -/
def parts (x : Float) : UnpackedFloat := x.toModel.unpack

/-! ### Exchanging factors -/

theorem sign_mul_comm (s s' : Sign) : s * s' = s' * s := by cases s <;> cases s' <;> rfl

theorem mul_parts_comm (x y : UnpackedFloat) :
    UnpackedFloat.mul Format.binary64 x y = UnpackedFloat.mul Format.binary64 y x := by
  cases x with
  | finite s m e hpos =>
    cases y with
    | finite s' m' e' hpos' =>
      simp only [UnpackedFloat.mul, sign_mul_comm s', Nat.mul_comm m', Int.add_comm e']
    | infinity s' | zero s' => simp only [UnpackedFloat.mul, sign_mul_comm s']
    | notANumber => rfl
  | infinity s | zero s =>
    cases y with
    | notANumber => rfl
    | _ => simp only [UnpackedFloat.mul, sign_mul_comm s]
  | notANumber => cases y <;> rfl

/-- **The factors of a product may be exchanged.** -/
theorem product_comm (x y : Float) : x * y = y * x :=
  congrArg (fun z => Float.ofModel (Float.Model.pack z)) (mul_parts_comm (parts x) (parts y))

/-! ### Equal factors -/

/-- Only a number itself compares equal to it, unless it is a zero. -/
theorem eq_of_compare {x : UnpackedFloat} {s : Sign} {m : Nat} {e : Int} {hpos : 0 < m}
    (h : x.compare (.finite s m e hpos) = some .eq) : x = .finite s m e hpos := by
  cases x with
  | finite s' m' e' hpos' =>
    have hfields : s' = s ∧ compare e' e = .eq ∧ compare m' m = .eq := by
      cases s' <;> cases s
      · exact ⟨rfl, Ordering.then_eq_eq.1 (Ordering.swap_eq_eq.1 (Option.some.inj h))⟩
      · cases h
      · cases h
      · exact ⟨rfl, Ordering.then_eq_eq.1 (Option.some.inj h)⟩
    obtain ⟨rfl, hexponent, hmantissa⟩ := hfields
    obtain rfl := Int.compare_eq_eq.1 hexponent
    obtain rfl := Nat.compare_eq_eq.1 hmantissa
    rfl
  | infinity s' | zero s' => cases s <;> cases s' <;> cases h
  | notANumber => cases h

/-- A factor may be replaced by a number that it is found to be equal to. -/
theorem product_eq_of_beq {x y : Float} (h : (x == y) = true) {s : Sign} {m : Nat} {e : Int}
    {hpos : 0 < m} (hy : parts y = .finite s m e hpos) (z : Float) : x * z = y * z := by
  have hcompare : (parts x).compare (parts y) = some .eq := eq_of_beq h
  have hparts : parts x = parts y := by
    rw [hy] at hcompare ⊢
    exact eq_of_compare hcompare
  exact congrArg
    (fun u => Float.ofModel (Float.Model.pack (UnpackedFloat.mul Format.binary64 u (parts z))))
    hparts

theorem parts_one : parts 1 = .finite .positive (2 ^ 52) (-52) (by decide) := rfl

theorem parts_two : parts Scalar.two = .finite .positive (2 ^ 52) (-51) (by decide) := by
  have htwo : (Scalar.two : Float) = Float.ofBits 0x4000000000000000 := by decide +kernel
  rw [htwo]
  rfl

theorem one_product_pi : (1 : Float) * Scalar.pi = Scalar.pi := by decide +kernel

/-- **The exported angle of a number of half-turns is their product with π**, also where it is
spelled as a formula. -/
theorem eval_angle_eq_product (exponent : Float) :
    (MomentOperation.angle exponent).eval = exponent * Scalar.pi := by
  unfold MomentOperation.angle
  split
  · rename_i hone
    exact ((product_eq_of_beq hone parts_one Scalar.pi).trans one_product_pi).symm
  · split
    · rename_i htwo
      exact (product_eq_of_beq htwo parts_two Scalar.pi).symm
    · rfl

end CircuitExchange.Decimal
