import CircuitExchange.State.Amplitude
import CircuitExchange.State.Operation

/-!
What the elementary operations do to an array of amplitudes. Every operation is one of two sweeps
over the array: `scaleWhere` multiplies single amplitudes, and `exchangePairs` combines the
amplitudes of pairs of indices in place. A pair is visited once, from the index that `first`
selects.

* `size_kernel`: no operation changes the number of amplitudes.
-/

namespace CircuitExchange

variable {α : Type}

/-- The array with the amplitudes at two indices replaced by a function of both. -/
def updatePair (f : Amplitude α → Amplitude α → Amplitude α × Amplitude α)
    (amps : Array (Amplitude α)) (i j : Nat) : Array (Amplitude α) :=
  if h : i < amps.size ∧ j < amps.size then
    let (a, b) := f amps[i] amps[j]
    (amps.set i a).set j b (by simp [h.2])
  else amps

/--
Runs through the indices in increasing order; each one that `first` selects is combined with its
`partner`.
-/
def exchangePairs (first : Nat → Bool) (partner : Nat → Nat)
    (f : Amplitude α → Amplitude α → Amplitude α × Amplitude α)
    (amps : Array (Amplitude α)) : Array (Amplitude α) :=
  Nat.fold amps.size
    (fun i _ acc => if first i then updatePair f acc i (partner i) else acc) amps

/-- Applies one function to the amplitudes at selected indices and another to all others. -/
def scaleWhere (selected : Nat → Bool) (inside outside : Amplitude α → Amplitude α)
    (amps : Array (Amplitude α)) : Array (Amplitude α) :=
  amps.mapIdx fun i a => if selected i then inside a else outside a

/-- The index with the given bit set. -/
def setBit (i bit : Nat) : Nat := i ||| 1 <<< bit

/-- Combines the amplitudes of indices that differ in one bit, the cleared one first. -/
def mixBit (bit : Nat) (f : Amplitude α → Amplitude α → Amplitude α × Amplitude α) :
    Array (Amplitude α) → Array (Amplitude α) :=
  exchangePairs (fun i => !i.testBit bit) (setBit · bit) f

/-- Combines the amplitudes of indices that differ in the target, where the controls are set. -/
def mixControlled (controls : List Nat) (target : Nat)
    (f : Amplitude α → Amplitude α → Amplitude α × Amplitude α) :
    Array (Amplitude α) → Array (Amplitude α) :=
  exchangePairs (fun i => controls.all (i.testBit ·) && !i.testBit target) (setBit · target) f

/-- Combines the amplitudes of indices that have just the first and just the second bit set. -/
def mixSwapped (first second : Nat) (f : Amplitude α → Amplitude α → Amplitude α × Amplitude α) :
    Array (Amplitude α) → Array (Amplitude α) :=
  exchangePairs (fun i => i.testBit first && !i.testBit second)
    (fun i => i ^^^ 1 <<< first ^^^ 1 <<< second) f

@[simp]
theorem size_updatePair (f : Amplitude α → Amplitude α → Amplitude α × Amplitude α)
    (amps : Array (Amplitude α)) (i j : Nat) : (updatePair f amps i j).size = amps.size := by
  unfold updatePair
  split <;> simp

theorem size_fold_updatePair (first : Nat → Bool) (partner : Nat → Nat)
    (f : Amplitude α → Amplitude α → Amplitude α × Amplitude α) (n : Nat)
    (amps : Array (Amplitude α)) :
    (Nat.fold n (fun i _ acc => if first i then updatePair f acc i (partner i) else acc)
      amps).size = amps.size := by
  induction n with
  | zero => rfl
  | succ n ih =>
    rw [Nat.fold_succ]
    split
    · rw [size_updatePair, ih]
    · exact ih

@[simp]
theorem size_exchangePairs (first : Nat → Bool) (partner : Nat → Nat)
    (f : Amplitude α → Amplitude α → Amplitude α × Amplitude α) (amps : Array (Amplitude α)) :
    (exchangePairs first partner f amps).size = amps.size :=
  size_fold_updatePair first partner f amps.size amps

@[simp]
theorem size_scaleWhere (selected : Nat → Bool) (inside outside : Amplitude α → Amplitude α)
    (amps : Array (Amplitude α)) : (scaleWhere selected inside outside amps).size = amps.size := by
  simp [scaleWhere]

/-! ### The matrices, row by row -/

variable [Scalar α]

/-- Exchanges two amplitudes. -/
def exchange (a b : Amplitude α) : Amplitude α × Amplitude α := (b, a)

def mixY (a b : Amplitude α) : Amplitude α × Amplitude α :=
  (-Amplitude.unit * b, Amplitude.unit * a)

def mixH (a b : Amplitude α) : Amplitude α × Amplitude α :=
  let s := 1 / Scalar.sqrt (Scalar.two : α)
  ((a + b).scale s, (a - b).scale s)

def mixRx (theta : α) (a b : Amplitude α) : Amplitude α × Amplitude α :=
  let c := Scalar.cos (theta / Scalar.two)
  let s : Amplitude α := ⟨0, -Scalar.sin (theta / Scalar.two)⟩
  (a.scale c + s * b, s * a + b.scale c)

def mixRy (theta : α) (a b : Amplitude α) : Amplitude α × Amplitude α :=
  let c := Scalar.cos (theta / Scalar.two)
  let s := Scalar.sin (theta / Scalar.two)
  (a.scale c - b.scale s, a.scale s + b.scale c)

def mixU (theta phi lambda : α) (a b : Amplitude α) : Amplitude α × Amplitude α :=
  let c := Scalar.cos (theta / Scalar.two)
  let s := Scalar.sin (theta / Scalar.two)
  let right := (Amplitude.phase lambda).scale s
  let below := (Amplitude.phase phi).scale s
  let corner := (Amplitude.phase (phi + lambda)).scale c
  (a.scale c - right * b, below * a + corner * b)

def mixISwap (a b : Amplitude α) : Amplitude α × Amplitude α :=
  (Amplitude.unit * b, Amplitude.unit * a)

/-- The action of an operation on the given bits. A wrong number of bits has no action. -/
def kernel (op : Operation α) (bits : List Nat) :
    Array (Amplitude α) → Array (Amplitude α) :=
  match op, bits with
  | .x, [q] => mixBit q exchange
  | .y, [q] => mixBit q mixY
  | .z, [q] => scaleWhere (·.testBit q) (- ·) id
  | .h, [q] => mixBit q mixH
  | .phase theta, [q] => scaleWhere (·.testBit q) (· * Amplitude.phase theta) id
  | .rx theta, [q] => mixBit q (mixRx theta)
  | .ry theta, [q] => mixBit q (mixRy theta)
  | .rz theta, [q] =>
    scaleWhere (·.testBit q) (· * Amplitude.phase (theta / Scalar.two))
      (· * Amplitude.phase (-theta / Scalar.two))
  | .u theta phi lambda, [q] => mixBit q (mixU theta phi lambda)
  | .cx, [control, target] => mixControlled [control] target exchange
  | .cz, [control, target] =>
    scaleWhere (fun i => i.testBit control && i.testBit target) (- ·) id
  | .swap, [first, second] => mixSwapped first second exchange
  | .iswap, [first, second] => mixSwapped first second mixISwap
  | .ccx, [control, control', target] => mixControlled [control, control'] target exchange
  | _, _ => id

@[simp]
theorem size_kernel (op : Operation α) (bits : List Nat) (amps : Array (Amplitude α)) :
    (kernel op bits amps).size = amps.size := by
  unfold kernel
  split <;> simp [mixBit, mixControlled, mixSwapped]

end CircuitExchange
