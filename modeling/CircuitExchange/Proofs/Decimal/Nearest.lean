import Mathlib
import CircuitExchange.Proofs.Decimal.Word
import CircuitExchange.Decimal.Shortest

/-!
Rounding undoes writing. The digits that are chosen for a magnitude stand for a number that is
rounded to this magnitude again.

* `nearestWord_units`: a magnitude is its own nearest one.
* `Numeral.nearest_mul_tenPow`: the nearest magnitude depends on the value of a numeral alone.
* `nearest_exact`: all the digits of a magnitude stand for it.
* `nearest_shortest`: so do the shortest ones.
-/

namespace CircuitExchange.Decimal

theorem tenPow_pos (k : Nat) : 0 < tenPow k := Nat.pow_pos (by decide)

theorem tenPow_succ (k : Nat) : tenPow (k + 1) = tenPow k * 10 := rfl

/-! ### The nearest magnitude -/

/-- The nearest magnitude depends on the quotient alone. -/
theorem nearestWord_mul_left {c : Nat} (hc : 0 < c) (n d : Nat) :
    nearestWord (c * n) (c * d) = nearestWord n d := by
  have hshift : ∀ s, (c * d) <<< s = c * (d <<< s) := fun s => by
    rw [Nat.shiftLeft_eq, Nat.shiftLeft_eq, Nat.mul_assoc]
  simp only [nearestWord, Nat.mul_div_mul_left n d hc, hshift, divNearest_mul_left _ _ _ hc]

/-- From one octave on, the units of a word are its place in the octave, scaled. -/
theorem units_add_octave (q : Nat) {r : Nat} (hr : r < octave) :
    units ((q + 1) * octave + r) = (octave + r) <<< q := by
  have hoct : 0 < octave := by decide
  have hge : ¬ (q + 1) * octave + r < octave := by
    rw [Nat.succ_mul]
    omega
  have hdiv : ((q + 1) * octave + r) / octave = q + 1 := by
    rw [Nat.mul_comm, Nat.mul_add_div hoct, Nat.div_eq_of_lt hr, Nat.add_zero]
  have hmod : ((q + 1) * octave + r) % octave = r := by
    rw [Nat.mul_comm, Nat.mul_add_mod, Nat.mod_eq_of_lt hr]
  rw [units, if_neg hge, hdiv, hmod, Nat.add_sub_cancel]

/-- A magnitude is its own nearest one. -/
theorem nearestWord_units (k : Nat) : nearestWord (units k) 1 = k := by
  by_cases hk : k < octave
  · rw [units_of_lt hk, nearestWord_of_lt (by omega)]
  · obtain ⟨q, hq⟩ : ∃ q, k / octave = q + 1 :=
      Nat.exists_eq_succ_of_ne_zero (Nat.div_pos (not_lt.1 hk) (by decide)).ne'
    have hr : k % octave < octave := Nat.mod_lt _ (by decide)
    have hkq : k = (q + 1) * octave + k % octave := by
      rw [← hq, Nat.mul_comm]
      exact (Nat.div_add_mod k octave).symm
    have hlog : ((octave + k % octave) <<< q).log2 = 52 + q := by
      have hlow : 2 ^ 52 ≤ octave + k % octave := Nat.le_add_right ..
      have hhigh : octave + k % octave < 2 ^ 53 := by
        simp only [octave] at *
        omega
      have hq : 0 < 2 ^ q := Nat.pow_pos (by decide)
      rw [Nat.shiftLeft_eq, Nat.log2_eq_iff (by positivity), Nat.pow_add,
        show 52 + q + 1 = 53 + q by omega, Nat.pow_add]
      exact ⟨Nat.mul_le_mul_right _ hlow, Nat.mul_lt_mul_of_pos_right hhigh hq⟩
    have hrounded : divNearest .even ((octave + k % octave) <<< q) (1 <<< q) =
        octave + k % octave := by
      rw [Nat.shiftLeft_eq, Nat.shiftLeft_eq, Nat.one_mul]
      exact divNearest_mul_self _ _ (Nat.pow_pos (by decide))
    rw [hkq, units_add_octave q hr, nearestWord, Nat.div_one, hlog, Nat.add_sub_cancel_left,
      hrounded, Nat.succ_mul]
    omega

theorem units_pos {k : Nat} (hk : 0 < k) : 0 < units k := by
  rw [units]
  split
  · exact hk
  · rw [Nat.shiftLeft_eq]
    exact Nat.mul_pos (by simp only [octave]; omega) (Nat.pow_pos (by decide))

/-- Finite magnitudes have at most 309 digits before the point. -/
theorem units_lt {k : Nat} (hk : k < infinityWord) : units k < tenPow 309 * unitsInOne := by
  have hlargest : (2 * octave) <<< 2045 < tenPow 309 * unitsInOne := by decide +kernel
  refine lt_of_le_of_lt ?_ hlargest
  rw [units]
  split
  · have hgrow : ∀ j, 2 * octave ≤ (2 * octave) <<< j := fun j => by
      rw [Nat.shiftLeft_eq]
      exact Nat.le_mul_of_pos_right _ (Nat.pow_pos (by decide))
    have := hgrow 2045
    omega
  · have hq : k / octave - 1 ≤ 2045 := by
      have : k / octave < 0x7ff := (Nat.div_lt_iff_lt_mul (by decide)).2 hk
      omega
    have hr : octave + k % octave ≤ 2 * octave := by
      have : k % octave < octave := Nat.mod_lt _ (by decide)
      omega
    have hshift : ∀ j, k / octave - 1 ≤ j →
        (octave + k % octave) <<< (k / octave - 1) ≤ (2 * octave) <<< j := fun j hj => by
      rw [Nat.shiftLeft_eq, Nat.shiftLeft_eq]
      exact Nat.mul_le_mul hr (Nat.pow_le_pow_right (by decide) hj)
    exact hshift _ hq

/-! ### Numerals of the same value -/

namespace Numeral

theorem nearest_zero (e : Int) : (⟨0, e⟩ : Numeral).nearest = 0 := by
  simp [nearest]

/-- A zero at the end of the significand counts in the exponent as well. -/
theorem nearest_mul_ten (s : Nat) (e : Int) :
    (⟨s * 10, e⟩ : Numeral).nearest = (⟨s, e + 1⟩ : Numeral).nearest := by
  rcases Nat.eq_zero_or_pos s with rfl | hs
  · rw [Nat.zero_mul, nearest_zero, nearest_zero]
  · have hlength : (digits (s * 10)).length = (digits s).length + 1 := by
      have happend := Nat.toDigits_append_toDigits (b := 10) (n := s) (d := 0) (by decide) hs
        (by decide)
      rw [digits, Nat.mul_comm, ← Nat.add_zero (10 * s), ← happend]
      simp [digits]
    have hratio : nearestWord (⟨s * 10, e⟩ : Numeral).ratio.1 (⟨s * 10, e⟩ : Numeral).ratio.2 =
        nearestWord (⟨s, e + 1⟩ : Numeral).ratio.1 (⟨s, e + 1⟩ : Numeral).ratio.2 := by
      simp only [ratio]
      rcases lt_trichotomy e (-1) with he | rfl | he
      · obtain ⟨j, hj⟩ : ∃ j : Nat, (-e).toNat = j + 1 := ⟨(-e).toNat - 1, by omega⟩
        have hj' : (-(e + 1)).toNat = j := by omega
        rw [if_neg (by omega), if_neg (by omega), hj, hj', tenPow_succ,
          show s * 10 * unitsInOne = 10 * (s * unitsInOne) by ring, Nat.mul_comm (tenPow j),
          nearestWord_mul_left (by decide)]
      · have : s * 10 * unitsInOne = 10 * (s * tenPow 0 * unitsInOne) := by
          rw [show tenPow 0 = 1 from rfl]
          ring
        rw [if_neg (by decide), if_pos (by decide)]
        show nearestWord (s * 10 * unitsInOne) (10 * 1) = nearestWord (s * tenPow 0 * unitsInOne) 1
        rw [this, nearestWord_mul_left (by decide)]
      · obtain ⟨j, rfl⟩ : ∃ j : Nat, e = j := ⟨e.toNat, by omega⟩
        have hj : ((j : Int) + 1).toNat = j + 1 := by omega
        rw [if_pos (by omega), if_pos (by omega), Int.toNat_natCast, hj, tenPow_succ,
          Nat.mul_assoc s 10, Nat.mul_comm 10]
    have hs' : s * 10 ≠ 0 := by omega
    simp only [nearest, hlength, if_neg hs', if_neg hs.ne', hratio]
    push_cast
    simp only [add_assoc, add_comm]

/-- The nearest magnitude depends on the value of a numeral alone. -/
theorem nearest_mul_tenPow (s j : Nat) (e : Int) :
    (⟨s * tenPow j, e⟩ : Numeral).nearest = (⟨s, e + j⟩ : Numeral).nearest := by
  induction j generalizing e with
  | zero => simp [tenPow]
  | succ j ih =>
    rw [tenPow_succ, ← Nat.mul_assoc, nearest_mul_ten, ih]
    congr 2
    push_cast
    ring

end Numeral

/-! ### The digits of a magnitude -/

theorem nearest_stripZeros (s : Nat) (e : Int) :
    (stripZeros s e).nearest = (⟨s, e⟩ : Numeral).nearest := by
  induction s, e using stripZeros.induct with
  | case1 s e h ih =>
    rw [stripZeros, if_pos h, ih, ← Numeral.nearest_mul_ten, Nat.div_mul_cancel]
    exact Nat.dvd_of_mod_eq_zero h.2
  | case2 s e h => rw [stripZeros, if_neg h]

/-- Decimals that are enough for every unit lose nothing. -/
theorem nearestWord_ratio (k : Nat) {c j : Nat} (hj : 0 < j) (hc : tenPow j = c * unitsInOne) :
    nearestWord (⟨units k * c, -(j : Int)⟩ : Numeral).ratio.1
      (⟨units k * c, -(j : Int)⟩ : Numeral).ratio.2 = k := by
  have hcpos : 0 < c * unitsInOne := hc ▸ tenPow_pos j
  have hquotient := nearestWord_mul_left hcpos (units k) 1
  rw [Nat.mul_one, nearestWord_units, ← hc] at hquotient
  have hvalue : units k * c * unitsInOne = tenPow j * units k := by
    rw [hc]
    ring
  simp only [Numeral.ratio]
  rw [if_neg (by omega), show (-(-(j : Int))).toNat = j by omega, hvalue]
  exact hquotient

/-- All the digits of a magnitude stand for it. -/
theorem nearest_exact {k : Nat} (hpos : 0 < k) (hk : k < infinityWord) : (exact k).nearest = k := by
  have hscale : tenPow 1074 = Nat.pow 5 1074 * unitsInOne := by decide +kernel
  have hfive : 0 < Nat.pow 5 1074 := by decide +kernel
  have hunits := units_pos hpos
  set s := units k * Nat.pow 5 1074 with hs
  have hspos : 0 < s := Nat.mul_pos hunits hfive
  -- the digits are few enough and many enough for the rounding to look at them all
  have hupper : (digits s).length ≤ 1383 := by
    refine (Nat.length_toDigits_le_iff (by decide) (by decide)).2 ?_
    calc s < tenPow 309 * unitsInOne * Nat.pow 5 1074 :=
          Nat.mul_lt_mul_of_pos_right (units_lt hk) hfive
      _ = 10 ^ 1383 := by decide +kernel
  have hlower : 700 < (digits s).length := by
    by_contra hle
    have hlt := (Nat.length_toDigits_le_iff (b := 10) (n := s) (by decide) (by decide)).1
      (not_lt.1 hle)
    have hge : (10 : Nat) ^ 700 ≤ Nat.pow 5 1074 := by decide +kernel
    have := Nat.le_mul_of_pos_left (Nat.pow 5 1074) hunits
    omega
  have hratio : nearestWord (exact k).ratio.1 (exact k).ratio.2 = k :=
    nearestWord_ratio k (by decide) hscale
  have hne : (exact k).significand ≠ 0 := hspos.ne'
  have hsize : (exact k).exponent + (digits (exact k).significand).length =
      -1074 + (digits s).length := rfl
  rw [Numeral.nearest, if_neg hne, hsize, if_neg (by simp only [Numeral.highest]; omega),
    if_neg (by simp only [Numeral.lowest]; omega), hratio]
  omega

/-- The shortest digits of a magnitude stand for it. -/
theorem nearest_shortest (tie : Tie) {k : Nat} (hpos : 0 < k) (hk : k < infinityWord) :
    (shortest tie k).nearest = k := by
  have hfound :
      (((List.range' 1 17).findSome? (withDigits? tie k)).getD (exact k)).nearest = k := by
    cases h : (List.range' 1 17).findSome? (withDigits? tie k) with
    | none => exact nearest_exact hpos hk
    | some a =>
      obtain ⟨count, -, hcount⟩ := List.exists_of_findSome?_eq_some h
      have hreads : readsBack k a = true := List.find?_some hcount
      exact eq_of_beq hreads
  rw [shortest, if_neg hpos.ne', nearest_stripZeros]
  exact hfound

end CircuitExchange.Decimal
