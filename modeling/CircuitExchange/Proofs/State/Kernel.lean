import Mathlib
import CircuitExchange.State.Vector

/-!
What the operations do to one amplitude. Every operation pairs each index with the one that differs
from it in a mask of the bits acted on, and makes a new amplitude of the two old ones. The sweeps
work in place, but no amplitude is read after it was written.

* `getD_exchangePairs`: a sweep over pairs, one amplitude at a time.
* `Operation.mask`, `Operation.entry`: the partner of an index and what becomes of its amplitude.
* `getD_kernel`: an operation, one amplitude at a time.
* `Operation.entry_map_congr`: only the bits acted on matter.
* `Statevector.ext_getD`: states are equal if all their amplitudes are.
-/

namespace CircuitExchange

/-! ### Bits of an index -/

section Bits

variable {i n bit : Nat}

theorem testBit_one_shiftLeft (bit k : Nat) : (1 <<< bit).testBit k = decide (bit = k) := by
  rw [Nat.one_shiftLeft, Nat.testBit_two_pow]

/-- Exchanging a bit of an index changes this bit and no other. -/
theorem testBit_xor_shift (i bit k : Nat) :
    (i ^^^ 1 <<< bit).testBit k = (i.testBit k ^^ decide (bit = k)) := by
  rw [Nat.testBit_xor, testBit_one_shiftLeft]

theorem setBit_eq_xor (h : i.testBit bit = false) : setBit i bit = i ^^^ 1 <<< bit := by
  apply Nat.eq_of_testBit_eq
  intro k
  rw [setBit, Nat.testBit_or, testBit_xor_shift, testBit_one_shiftLeft]
  by_cases hk : bit = k
  · rw [← hk, h]
    simp
  · simp [hk]

theorem shift_lt_shift (h : bit < n) : 1 <<< bit < 1 <<< n := by
  rw [Nat.one_shiftLeft, Nat.one_shiftLeft]
  exact Nat.pow_lt_pow_right (by omega) h

theorem xor_lt_shift {mask : Nat} (hi : i < 1 <<< n) (hmask : mask < 1 <<< n) :
    i ^^^ mask < 1 <<< n := by
  rw [Nat.one_shiftLeft] at *
  exact Nat.xor_lt_two_pow hi hmask

end Bits

/-! ### Sweeps -/

section Pairs

variable {α : Type} {f : Amplitude α → Amplitude α → Amplitude α × Amplitude α}
  {first first' : Nat → Bool} {mask k : Nat}

/-- What a sweep makes of an amplitude and that of its partner. -/
def pairEntry (first : Nat → Bool) (mask : Nat)
    (f : Amplitude α → Amplitude α → Amplitude α × Amplitude α) (k : Nat) (a b : Amplitude α) :
    Amplitude α :=
  if first k then (f a b).1 else if first (k ^^^ mask) then (f b a).2 else a

theorem pairEntry_of_first (h : first k = true)
    (a b : Amplitude α) : pairEntry first mask f k a b = (f a b).1 := if_pos h

theorem pairEntry_of_other (h : first k = false)
    (h' : first (k ^^^ mask) = true) (a b : Amplitude α) :
    pairEntry first mask f k a b = (f b a).2 := by
  rw [pairEntry, if_neg (by simp [h]), if_pos h']

theorem pairEntry_of_neither (h : first k = false)
    (h' : first (k ^^^ mask) = false) (a b : Amplitude α) : pairEntry first mask f k a b = a := by
  rw [pairEntry, if_neg (by simp [h]), if_neg (by simp [h'])]

theorem pairEntry_congr (h : first k = first' k)
    (h' : first (k ^^^ mask) = first' (k ^^^ mask)) (a b : Amplitude α) :
    pairEntry first mask f k a b = pairEntry first' mask f k a b := by
  rw [pairEntry, pairEntry, h, h']

end Pairs

section Sweeps

variable {α : Type} [Scalar α] {amps : Array (Amplitude α)}

theorem getD_scaleWhere {selected : Nat → Bool} {inside outside : Amplitude α → Amplitude α}
    {k : Nat} (hk : k < amps.size) :
    (scaleWhere selected inside outside amps).getD k 0 =
      if selected k then inside (amps.getD k 0) else outside (amps.getD k 0) := by
  simp [scaleWhere, hk]

variable {f : Amplitude α → Amplitude α → Amplitude α × Amplitude α}

theorem getD_updatePair {i j : Nat} (hi : i < amps.size) (hj : j < amps.size) (hne : i ≠ j)
    (k : Nat) :
    (updatePair f amps i j).getD k 0 =
      if k = i then (f (amps.getD i 0) (amps.getD j 0)).1
      else if k = j then (f (amps.getD i 0) (amps.getD j 0)).2
      else amps.getD k 0 := by
  have hgetD : ∀ (as : Array (Amplitude α)) (l : Nat), as.getD l 0 = as[l]?.getD 0 :=
    fun as l => Array.getD_eq_getD_getElem? ..
  rw [updatePair, dif_pos ⟨hi, hj⟩]
  simp only [hgetD, Array.getElem?_set, Array.getElem?_eq_getElem hi, Array.getElem?_eq_getElem hj,
    Option.getD_some]
  by_cases hki : k = i
  · have hkj : ¬ j = k := fun h => hne (hki ▸ h.symm)
    rw [if_neg hkj, if_pos hki.symm, if_pos hki]
    rfl
  · rw [if_neg hki]
    by_cases hkj : k = j
    · rw [if_pos hkj.symm, if_pos hkj]
      rfl
    · rw [if_neg (Ne.symm hkj), if_neg (Ne.symm hki), if_neg hkj]

/-- A selection of one index of each pair of indices that differ in the mask. -/
structure Selects (first : Nat → Bool) (mask size : Nat) : Prop where
  lt : ∀ i < size, i ^^^ mask < size
  other : ∀ i, first i → first (i ^^^ mask) = false

theorem getD_fold_updatePair {first : Nat → Bool} {partner : Nat → Nat} {mask : Nat}
    (hselects : Selects first mask amps.size)
    (hpartner : ∀ i, first i → partner i = i ^^^ mask) {n : Nat} (hn : n ≤ amps.size) {k : Nat}
    (hk : k < amps.size) :
    (Nat.fold n (fun i _ acc => if first i then updatePair f acc i (partner i) else acc)
      amps).getD k 0 =
      pairEntry (fun i => first i && decide (i < n)) mask f k (amps.getD k 0)
        (amps.getD (k ^^^ mask) 0) := by
  induction n generalizing k with
  | zero => simp [pairEntry]
  | succ n ih =>
    have hold := ih (Nat.le_of_succ_le hn) hk
    have hsame : ∀ l, l ≠ n → (first l && decide (l < n)) = (first l && decide (l < n + 1)) := by
      intro l hl
      rw [decide_eq_decide.2 (show l < n ↔ l < n + 1 by omega)]
    rw [Nat.fold_succ]
    cases hfirst : first n with
    | false =>
      have hsame' : ∀ l, (first l && decide (l < n)) = (first l && decide (l < n + 1)) := by
        intro l
        by_cases hl : l = n
        · rw [hl, hfirst, Bool.false_and, Bool.false_and]
        · exact hsame l hl
      rw [if_neg Bool.false_ne_true, hold]
      exact pairEntry_congr (hsame' _) (hsame' _) ..
    | true =>
      have hnlt : n < amps.size := hn
      have hplt := hselects.lt n hnlt
      have hother := hselects.other n hfirst
      have hne : n ≠ n ^^^ mask := fun heq => by
        rw [← heq, hfirst] at hother
        cases hother
      -- neither amplitude of the pair has been written yet
      have hn_old := (ih (Nat.le_of_succ_le hn) hnlt).trans
        (pairEntry_of_neither (by simp) (by simp [hother]) ..)
      have hp_old := (ih (Nat.le_of_succ_le hn) hplt).trans
        (pairEntry_of_neither (by simp [hother]) (by simp) ..)
      rw [if_pos rfl, hpartner n hfirst, getD_updatePair _ _ hne, hn_old, hp_old, hold]
      · by_cases hkn : k = n
        · rw [if_pos hkn, hkn, pairEntry_of_first (by simp [hfirst])]
        · rw [if_neg hkn]
          by_cases hkp : k = n ^^^ mask
          · have hback : k ^^^ mask = n := by rw [hkp, Nat.xor_assoc, Nat.xor_self, Nat.xor_zero]
            rw [if_pos hkp, pairEntry_of_other (by simp [hkp, hother]) (by simp [hback, hfirst]),
              hback, hkp]
          · have hback : k ^^^ mask ≠ n := fun heq => hkp <| by
              rw [← heq, Nat.xor_assoc, Nat.xor_self, Nat.xor_zero]
            rw [if_neg hkp]
            exact pairEntry_congr (hsame k hkn) (hsame _ hback) ..
      · rw [size_fold_updatePair]
        exact hnlt
      · rw [size_fold_updatePair]
        exact hplt

/-- **A sweep over pairs reads old amplitudes only.** -/
theorem getD_exchangePairs {first : Nat → Bool} {partner : Nat → Nat} {mask : Nat}
    (hselects : Selects first mask amps.size)
    (hpartner : ∀ i, first i → partner i = i ^^^ mask) {k : Nat} (hk : k < amps.size) :
    (exchangePairs first partner f amps).getD k 0 =
      pairEntry first mask f k (amps.getD k 0) (amps.getD (k ^^^ mask) 0) := by
  rw [exchangePairs, getD_fold_updatePair hselects hpartner (Nat.le_refl _) hk, pairEntry,
    pairEntry]
  simp [hk, hselects.lt k hk]

/-- What an operation on one bit makes of an amplitude and that of its partner. -/
def bitEntry (f : Amplitude α → Amplitude α → Amplitude α × Amplitude α) (bit k : Nat)
    (a b : Amplitude α) : Amplitude α :=
  if k.testBit bit then (f b a).2 else (f a b).1

/-- What an operation on two bits that differ makes of an amplitude and that of its partner. -/
def swapEntry (f : Amplitude α → Amplitude α → Amplitude α × Amplitude α) (bit bit' k : Nat)
    (a b : Amplitude α) : Amplitude α :=
  if k.testBit bit && !k.testBit bit' then (f a b).1
  else if k.testBit bit' && !k.testBit bit then (f b a).2
  else a

variable {n k : Nat} (hsize : amps.size = 1 <<< n) (hk : k < 1 <<< n)
include hsize hk

theorem getD_mixControlled {controls : List Nat} {target : Nat} (ht : target < n)
    (hcontrols : target ∉ controls) :
    (mixControlled controls target f amps).getD k 0 =
      if controls.all (k.testBit ·) then
        bitEntry f target k (amps.getD k 0) (amps.getD (k ^^^ 1 <<< target) 0)
      else amps.getD k 0 := by
  have hall : ∀ i, controls.all ((i ^^^ 1 <<< target).testBit ·) = controls.all (i.testBit ·) := by
    intro i
    rw [Bool.eq_iff_iff, List.all_eq_true, List.all_eq_true]
    refine forall₂_congr fun c hc => ?_
    have hne : target ≠ c := fun heq => hcontrols (heq ▸ hc)
    rw [testBit_xor_shift, decide_eq_false hne, Bool.xor_false]
  have hselects : Selects (fun i => controls.all (i.testBit ·) && !i.testBit target)
      (1 <<< target) amps.size := by
    constructor
    · intro i hi
      rw [hsize] at hi ⊢
      exact xor_lt_shift hi (shift_lt_shift ht)
    · intro i hi
      rw [Bool.and_eq_true, Bool.not_eq_true'] at hi
      simp [hi.2]
  rw [mixControlled, getD_exchangePairs hselects _ (hsize ▸ hk), pairEntry, hall, bitEntry]
  · simp only [testBit_xor_shift]
    cases controls.all (k.testBit ·) <;> cases k.testBit target <;> simp
  · intro i hi
    rw [Bool.and_eq_true, Bool.not_eq_true'] at hi
    exact setBit_eq_xor hi.2

theorem getD_mixBit {bit : Nat} (hbit : bit < n) :
    (mixBit bit f amps).getD k 0 =
      bitEntry f bit k (amps.getD k 0) (amps.getD (k ^^^ 1 <<< bit) 0) := by
  have hmem : bit ∉ ([] : List Nat) := List.not_mem_nil
  simpa [mixControlled, mixBit] using getD_mixControlled (f := f) hsize hk hbit hmem

theorem getD_mixSwapped {bit bit' : Nat} (hbit : bit < n) (hbit' : bit' < n) (hne : bit ≠ bit') :
    (mixSwapped bit bit' f amps).getD k 0 =
      swapEntry f bit bit' k (amps.getD k 0)
        (amps.getD (k ^^^ (1 <<< bit ^^^ 1 <<< bit')) 0) := by
  have hpartner : ∀ i b, (i ^^^ (1 <<< bit ^^^ 1 <<< bit')).testBit b =
      ((i.testBit b ^^ decide (bit = b)) ^^ decide (bit' = b)) := by
    intro i b
    rw [← Nat.xor_assoc, testBit_xor_shift, testBit_xor_shift]
  have hselects : Selects (fun i => i.testBit bit && !i.testBit bit')
      (1 <<< bit ^^^ 1 <<< bit') amps.size := by
    constructor
    · intro i hi
      rw [hsize] at hi ⊢
      exact xor_lt_shift hi (xor_lt_shift (shift_lt_shift hbit) (shift_lt_shift hbit'))
    · intro i hi
      rw [Bool.and_eq_true, Bool.not_eq_true'] at hi
      simp [hpartner, hi.1, hne.symm]
  rw [mixSwapped, getD_exchangePairs hselects _ (hsize ▸ hk), pairEntry, swapEntry]
  · simp only [hpartner]
    cases k.testBit bit <;> cases k.testBit bit' <;> simp [hne, hne.symm]
  · intro i _
    rw [Nat.xor_assoc]

end Sweeps

/-! ### Operations -/

/-- The operation has as many bits as it needs, all different and within the register. -/
structure Operation.Fits {α : Type} (op : Operation α) (bits : List Nat) (n : Nat) : Prop where
  length : bits.length = op.arity
  nodup : bits.Nodup
  lt : ∀ bit ∈ bits, bit < n

section Operations

variable {α : Type}

/-- Each index is combined with the one that differs from it in the mask. -/
def Operation.mask (op : Operation α) (bits : List Nat) : Nat :=
  match op, bits with
  | .x, [q] | .y, [q] | .h, [q] | .rx _, [q] | .ry _, [q] | .u _ _ _, [q] => 1 <<< q
  | .cx, [_, target] | .ccx, [_, _, target] => 1 <<< target
  | .swap, [q, q'] | .iswap, [q, q'] => 1 <<< q ^^^ 1 <<< q'
  | _, _ => 0

/-- What the operation makes of the amplitude `a` at index `k` with the partner's amplitude `b`. -/
def Operation.entry [Scalar α] (op : Operation α) (bits : List Nat) (k : Nat)
    (a b : Amplitude α) : Amplitude α :=
  match op, bits with
  | .x, [q] => bitEntry exchange q k a b
  | .y, [q] => bitEntry mixY q k a b
  | .z, [q] => if k.testBit q then -a else a
  | .h, [q] => bitEntry mixH q k a b
  | .phase theta, [q] => if k.testBit q then a * Amplitude.phase theta else a
  | .rx theta, [q] => bitEntry (mixRx theta) q k a b
  | .ry theta, [q] => bitEntry (mixRy theta) q k a b
  | .rz theta, [q] =>
    if k.testBit q then a * Amplitude.phase (theta / Scalar.two)
    else a * Amplitude.phase (-theta / Scalar.two)
  | .u theta phi lambda, [q] => bitEntry (mixU theta phi lambda) q k a b
  | .cx, [c, q] => if k.testBit c then bitEntry exchange q k a b else a
  | .cz, [c, q] => if k.testBit c && k.testBit q then -a else a
  | .swap, [q, q'] => swapEntry exchange q q' k a b
  | .iswap, [q, q'] => swapEntry mixISwap q q' k a b
  | .ccx, [c, c', q] => if k.testBit c && k.testBit c' then bitEntry exchange q k a b else a
  | _, _ => a

/-- **An operation combines each amplitude with that of its partner.** -/
theorem getD_kernel [Scalar α] {op : Operation α} {bits : List Nat} {n k : Nat}
    (hfits : op.Fits bits n) {amps : Array (Amplitude α)} (hsize : amps.size = 1 <<< n)
    (hk : k < 1 <<< n) :
    (kernel op bits amps).getD k 0 =
      op.entry bits k (amps.getD k 0) (amps.getD (k ^^^ op.mask bits) 0) := by
  obtain ⟨hlength, hnodup, hlt⟩ := hfits
  have hscaled : k < amps.size := hsize ▸ hk
  cases op
  case i =>
    obtain ⟨q, rfl⟩ := List.length_eq_one_iff.1 hlength
    rfl
  case x | y | h | rx | ry | u =>
    obtain ⟨q, rfl⟩ := List.length_eq_one_iff.1 hlength
    exact getD_mixBit hsize hk (hlt q (List.mem_singleton_self q))
  case z | phase | rz =>
    obtain ⟨q, rfl⟩ := List.length_eq_one_iff.1 hlength
    exact getD_scaleWhere hscaled
  case cz =>
    obtain ⟨c, q, rfl⟩ := List.length_eq_two.1 hlength
    exact getD_scaleWhere hscaled
  case cx =>
    obtain ⟨c, q, rfl⟩ := List.length_eq_two.1 hlength
    have hne : q ∉ [c] := by simpa [eq_comm] using hnodup
    have hmix := getD_mixControlled (f := exchange) hsize hk (hlt q (by simp)) hne
    rw [List.all_cons, List.all_nil, Bool.and_true] at hmix
    exact hmix
  case swap | iswap =>
    obtain ⟨q, q', rfl⟩ := List.length_eq_two.1 hlength
    have hne : q ≠ q' := by simpa using hnodup
    exact getD_mixSwapped hsize hk (hlt q (by simp)) (hlt q' (by simp)) hne
  case ccx =>
    obtain ⟨c, c', q, rfl⟩ := List.length_eq_three.1 hlength
    have hne : q ∉ [c, c'] := by
      simp only [List.nodup_cons, List.mem_cons, List.not_mem_nil, or_false, not_or] at hnodup ⊢
      exact ⟨Ne.symm hnodup.1.2, Ne.symm hnodup.2.1⟩
    have hmix := getD_mixControlled (f := exchange) hsize hk (hlt q (by simp)) hne
    rw [List.all_cons, List.all_cons, List.all_nil, Bool.and_true] at hmix
    exact hmix

/-- **Only the bits acted on matter** for what becomes of an amplitude: two lists of bits that read
the same in their indices make the same of it. -/
theorem Operation.entry_map_congr {β : Type} [Scalar α] {op : Operation α} {bits : List β}
    {f g : β → Nat} {k l : Nat} (h : ∀ b ∈ bits, k.testBit (f b) = l.testBit (g b))
    (a a' : Amplitude α) : op.entry (bits.map f) k a a' = op.entry (bits.map g) l a a' := by
  rcases bits with _ | ⟨b, _ | ⟨b', _ | ⟨b'', _ | ⟨b₃, bits⟩⟩⟩⟩
  case nil | cons.cons.cons.cons => cases op <;> rfl
  all_goals
    simp only [List.forall_mem_cons] at h
    cases op <;> simp only [entry, bitEntry, swapEntry, List.map_cons, List.map_nil, h]

theorem Operation.entry_congr [Scalar α] {op : Operation α} {bits : List Nat} {k l : Nat}
    (h : ∀ bit ∈ bits, k.testBit bit = l.testBit bit) (a b : Amplitude α) :
    op.entry bits k a b = op.entry bits l a b := by
  simpa only [List.map_id] using entry_map_congr (f := id) (g := id) h a b

/-- Moving the bits acted on moves those in which the partner differs. -/
theorem Operation.mask_map {β : Type} {op : Operation α} (φ : Nat → Nat)
    (hxor : ∀ x y, φ (x ^^^ y) = φ x ^^^ φ y) {bits : List β} {f g : β → Nat}
    (hbit : ∀ b ∈ bits, φ (1 <<< f b) = 1 <<< g b) :
    φ (op.mask (bits.map f)) = op.mask (bits.map g) := by
  have hzero : φ 0 = 0 := by
    have h := hxor 0 0
    rwa [Nat.xor_self, Nat.xor_self] at h
  rcases bits with _ | ⟨b, _ | ⟨b', _ | ⟨b'', _ | ⟨b₃, bits⟩⟩⟩⟩
  case nil | cons.cons.cons.cons => cases op <;> exact hzero
  all_goals
    simp only [List.forall_mem_cons] at hbit
    cases op <;> simp only [mask, List.map_cons, List.map_nil, hbit, hxor, hzero]

/-- The partner differs in bits acted on only. -/
theorem Operation.testBit_mask {op : Operation α} {bits : List Nat} {bit : Nat} (h : bit ∉ bits) :
    (op.mask bits).testBit bit = false := by
  unfold mask
  split <;> grind [testBit_one_shiftLeft]

theorem Operation.Fits.mask_lt {op : Operation α} {bits : List Nat} {n : Nat}
    (h : op.Fits bits n) : op.mask bits < 1 <<< n := by
  rw [Nat.one_shiftLeft]
  refine Nat.lt_pow_two_of_testBit _ fun bit hbit => Operation.testBit_mask fun hmem => ?_
  exact Nat.not_lt.2 hbit (h.lt bit hmem)

/-- States of the same size are equal if all their amplitudes are. -/
theorem Statevector.ext_getD [Scalar α] {s t : Statevector α} (hcount : s.qubitCount = t.qubitCount)
    (h : ∀ k < 1 <<< s.qubitCount, s.amplitudes.getD k 0 = t.amplitudes.getD k 0) : s = t := by
  have hsize : s.amplitudes.size = t.amplitudes.size := by rw [s.size_eq, t.size_eq, hcount]
  refine Statevector.ext hcount (Array.ext hsize fun k hs ht => ?_)
  simpa [Array.getD_eq_getD_getElem?, hs, ht] using h k (s.size_eq ▸ hs)

theorem Statevector.getD_zero [Scalar α] (n k : Nat) :
    (zero n : Statevector α).amplitudes.getD k 0 = if k = 0 then 1 else 0 := by
  rw [zero, Array.getD_eq_getD_getElem?, Array.getElem?_setIfInBounds]
  by_cases hk : k = 0
  · rw [hk]
    simp [Nat.one_shiftLeft]
  · rw [if_neg (Ne.symm hk), if_neg hk, Array.getElem?_replicate]
    split <;> rfl

/-! ### Checks -/

theorem checkBits_eq_ok_iff {op : Operation α} {n : Nat} {seen bits : List Nat} :
    Statevector.checkBits op n seen bits = .ok () ↔
      bits.Nodup ∧ ∀ bit ∈ bits, bit < n ∧ bit ∉ seen := by
  induction bits generalizing seen with
  | nil => simp [Statevector.checkBits]
  | cons bit rest ih =>
    rw [Statevector.checkBits]
    by_cases hn : n ≤ bit
    · simp [hn]
    · by_cases hseen : bit ∈ seen
      · simp [hn, hseen]
      · rw [if_neg hn, if_neg (by simpa using hseen), ih]
        simp only [List.nodup_cons, List.mem_cons, List.mem_append, List.not_mem_nil, or_false]
        grind

variable [Scalar α] {s t : Statevector α} {op : Operation α} {bits : List Nat}

/-- An operation is applied exactly if it fits. -/
theorem apply_eq_ok_iff :
    s.apply op bits = .ok t ↔ op.Fits bits s.qubitCount ∧ s.applyUnchecked op bits = t := by
  have hcheck : Statevector.checkBits op s.qubitCount [] bits = .ok () ↔
      bits.Nodup ∧ ∀ bit ∈ bits, bit < s.qubitCount ∧ bit ∉ [] := checkBits_eq_ok_iff
  rw [Statevector.apply]
  by_cases hlength : bits.length = op.arity
  · rw [if_neg (not_not_intro hlength)]
    cases hbits : Statevector.checkBits op s.qubitCount [] bits with
    | ok _ =>
      obtain ⟨hnodup, hlt⟩ := hcheck.1 hbits
      constructor
      · intro h
        exact ⟨⟨hlength, hnodup, fun bit hbit => (hlt bit hbit).1⟩, Except.ok.inj h⟩
      · rintro ⟨-, rfl⟩
        rfl
    | error e =>
      constructor
      · intro h
        cases h
      · rintro ⟨hfits, -⟩
        have hok := hcheck.2 ⟨hfits.nodup, fun bit hbit => ⟨hfits.lt bit hbit, List.not_mem_nil⟩⟩
        rw [hbits] at hok
        cases hok
  · rw [if_pos hlength]
    constructor
    · intro h
      cases h
    · rintro ⟨hfits, -⟩
      exact absurd hfits.length hlength

end Operations

end CircuitExchange
