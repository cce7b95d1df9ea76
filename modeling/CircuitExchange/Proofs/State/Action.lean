import Mathlib
import CircuitExchange.Proofs.Result
import CircuitExchange.Proofs.State.Kernel

/-!
The action of every operation, said without the order in which a sweep visits the amplitudes. Some
operations move amplitudes to other indices, some scale each of them by a factor of its own, and
some combine the two whose indices differ in the bits acted on. The sweeps overwrite one array while
they go through it, and never touch an index that the array does not have.

* `flipBit`, `exchangeBits`: the indices that amplitudes come from.
* `Operation.newAmplitude`: the new amplitude at an index, from the old ones.
* `Updating`, `Updating.perform`: operations as computations over an array that they change.
* `Updating.run_perform`: such a computation runs within the bounds of the array and ends as the
  kernel does.
* `kernels_act_by_formula`: what becomes of every amplitude, and of the state if the bits are wrong.
-/

namespace CircuitExchange

/-! ### Indices -/

section Indices

/-- The index with one bit flipped. -/
def flipBit (k bit : Nat) : Nat := k ^^^ 1 <<< bit

/-- The index with two bits exchanged. -/
def exchangeBits (k bit bit' : Nat) : Nat :=
  if k.testBit bit = k.testBit bit' then k else flipBit (flipBit k bit) bit'

theorem testBit_flipBit (k bit b : Nat) :
    (flipBit k bit).testBit b = if b = bit then !k.testBit b else k.testBit b := by
  rw [flipBit, testBit_xor_shift]
  by_cases h : b = bit
  · rw [if_pos h, decide_eq_true h.symm, Bool.xor_true]
  · rw [if_neg h, decide_eq_false (Ne.symm h), Bool.xor_false]

theorem testBit_exchangeBits (k bit bit' b : Nat) :
    (exchangeBits k bit bit').testBit b = k.testBit (Equiv.swap bit bit' b) := by
  rw [exchangeBits]
  by_cases hsame : k.testBit bit = k.testBit bit'
  · rw [if_pos hsame]
    rcases eq_or_ne b bit with rfl | hb
    · rw [Equiv.swap_apply_left, hsame]
    rcases eq_or_ne b bit' with rfl | hb'
    · rw [Equiv.swap_apply_right, hsame]
    · rw [Equiv.swap_apply_of_ne_of_ne hb hb']
  · have hne : bit ≠ bit' := fun heq => hsame (congrArg k.testBit heq)
    have hflip : (!k.testBit bit) = k.testBit bit' :=
      Bool.not_eq_eq_eq_not.2 (Bool.eq_not_of_ne hsame)
    rw [if_neg hsame, testBit_flipBit, testBit_flipBit]
    rcases eq_or_ne b bit with rfl | hb
    · rw [Equiv.swap_apply_left, if_neg hne, if_pos rfl, hflip]
    rcases eq_or_ne b bit' with rfl | hb'
    · rw [Equiv.swap_apply_right, if_pos rfl, if_neg hb, ← hflip, Bool.not_not]
    · rw [Equiv.swap_apply_of_ne_of_ne hb hb', if_neg hb', if_neg hb]

end Indices

/-! ### Formulas -/

section Formulas

variable {α : Type} [Scalar α]

/-- The amplitude at index `k` after an operation, from the amplitudes before it. -/
def Operation.newAmplitude (op : Operation α) (bits : List Nat) (old : Nat → Amplitude α)
    (k : Nat) : Amplitude α :=
  match op, bits with
  -- the amplitudes change places
  | .x, [q] => old (flipBit k q)
  | .cx, [c, q] => old (if k.testBit c then flipBit k q else k)
  | .ccx, [c, c', q] => old (if k.testBit c && k.testBit c' then flipBit k q else k)
  | .swap, [q, q'] => old (exchangeBits k q q')
  -- every amplitude is scaled by itself
  | .z, [q] => if k.testBit q then -old k else old k
  | .cz, [q, q'] => if k.testBit q && k.testBit q' then -old k else old k
  | .phase theta, [q] => if k.testBit q then old k * Amplitude.phase theta else old k
  | .rz theta, [q] =>
    old k * Amplitude.phase (if k.testBit q then theta / Scalar.two else -theta / Scalar.two)
  -- two amplitudes are combined; the row of the set bit is given first
  | .y, [q] =>
    if k.testBit q then Amplitude.unit * old (flipBit k q)
    else -Amplitude.unit * old (flipBit k q)
  | .h, [q] =>
    let factor := 1 / Scalar.sqrt (Scalar.two : α)
    if k.testBit q then (old (flipBit k q) - old k).scale factor
    else (old k + old (flipBit k q)).scale factor
  | .rx theta, [q] =>
    let c := Scalar.cos (theta / Scalar.two)
    let s : Amplitude α := ⟨0, -Scalar.sin (theta / Scalar.two)⟩
    if k.testBit q then s * old (flipBit k q) + (old k).scale c
    else (old k).scale c + s * old (flipBit k q)
  | .ry theta, [q] =>
    let c := Scalar.cos (theta / Scalar.two)
    let s := Scalar.sin (theta / Scalar.two)
    if k.testBit q then (old (flipBit k q)).scale s + (old k).scale c
    else (old k).scale c - (old (flipBit k q)).scale s
  | .u theta phi lambda, [q] =>
    let c := Scalar.cos (theta / Scalar.two)
    let s := Scalar.sin (theta / Scalar.two)
    if k.testBit q then
      (Amplitude.phase phi).scale s * old (flipBit k q) +
        (Amplitude.phase (phi + lambda)).scale c * old k
    else (old k).scale c - (Amplitude.phase lambda).scale s * old (flipBit k q)
  | .iswap, [q, q'] =>
    if k.testBit q = k.testBit q' then old k else Amplitude.unit * old (exchangeBits k q q')
  | _, _ => old k

/-- **An operation makes of an amplitude and its partner what the formula says.** -/
theorem Operation.entry_eq_newAmplitude {op : Operation α} {bits : List Nat}
    (hlength : bits.length = op.arity) (old : Nat → Amplitude α) (k : Nat) :
    op.entry bits k (old k) (old (k ^^^ op.mask bits)) = op.newAmplitude bits old k := by
  cases op
  case i =>
    obtain ⟨q, rfl⟩ := List.length_eq_one_iff.1 hlength
    rfl
  case z | phase =>
    obtain ⟨q, rfl⟩ := List.length_eq_one_iff.1 hlength
    rfl
  case x | y | h | rx | ry | rz | u =>
    obtain ⟨q, rfl⟩ := List.length_eq_one_iff.1 hlength
    simp only [entry, mask, newAmplitude, bitEntry, flipBit]
    cases k.testBit q <;> rfl
  case cz =>
    obtain ⟨c, q, rfl⟩ := List.length_eq_two.1 hlength
    rfl
  case cx =>
    obtain ⟨c, q, rfl⟩ := List.length_eq_two.1 hlength
    simp only [entry, mask, newAmplitude, bitEntry, flipBit]
    cases k.testBit c <;> cases k.testBit q <;> rfl
  case swap | iswap =>
    obtain ⟨q, q', rfl⟩ := List.length_eq_two.1 hlength
    simp only [entry, mask, newAmplitude, swapEntry, exchangeBits, flipBit, ← Nat.xor_assoc]
    cases k.testBit q <;> cases k.testBit q' <;> rfl
  case ccx =>
    obtain ⟨c, c', q, rfl⟩ := List.length_eq_three.1 hlength
    simp only [entry, mask, newAmplitude, bitEntry, flipBit]
    cases k.testBit c <;> cases k.testBit c' <;> cases k.testBit q <;> rfl

end Formulas

/-! ### Sweeps over one array -/

section InPlace

variable {α : Type}

/-- Why a computation over an array of amplitudes stops: the operation is refused, or the array does
not have an index that is touched. -/
inductive Abort (α : Type) where
  | refused (e : RunError α)
  | outOfBounds (index size : Nat)

/-- A computation that changes an array of amplitudes and may stop. What it has changed before it
stops stays changed. -/
abbrev Updating (α β : Type) := ExceptT (Abort α) (StateM (Array (Amplitude α))) β

namespace Updating

def read (i : Nat) : Updating α (Amplitude α) := do
  let amps ← get
  match amps[i]? with
  | some a => return a
  | none => throw (.outOfBounds i amps.size)

def write (i : Nat) (a : Amplitude α) : Updating α Unit := do
  let amps ← get
  if i < amps.size then set (amps.setIfInBounds i a) else throw (.outOfBounds i amps.size)

/-- Replaces the amplitudes at two indices by a function of both. -/
def combine (f : Amplitude α → Amplitude α → Amplitude α × Amplitude α) (i j : Nat) :
    Updating α Unit := do
  let a ← read i
  let b ← read j
  write i (f a b).1
  write j (f a b).2

/-- Combines the amplitudes at each index that `first` selects and at its `partner`, in increasing
order. -/
def sweepPairs (first : Nat → Bool) (partner : Nat → Nat)
    (f : Amplitude α → Amplitude α → Amplitude α × Amplitude α) : Updating α Unit := do
  let amps ← get
  (List.range amps.size).forM fun i => if first i then combine f i (partner i) else pure ()

def mixControlled (controls : List Nat) (target : Nat)
    (f : Amplitude α → Amplitude α → Amplitude α × Amplitude α) : Updating α Unit :=
  sweepPairs (fun i => controls.all (i.testBit ·) && !i.testBit target) (setBit · target) f

def mixSwapped (first second : Nat)
    (f : Amplitude α → Amplitude α → Amplitude α × Amplitude α) : Updating α Unit :=
  sweepPairs (fun i => i.testBit first && !i.testBit second)
    (fun i => i ^^^ 1 <<< first ^^^ 1 <<< second) f

/-- What an operation does to the array. Amplitudes that are scaled one by one are not looked up by
their index. -/
def perform [Scalar α] (op : Operation α) (bits : List Nat) : Updating α Unit :=
  match op, bits with
  | .x, [q] => mixControlled [] q exchange
  | .y, [q] => mixControlled [] q mixY
  | .z, [q] => modify (scaleWhere (·.testBit q) (- ·) id)
  | .h, [q] => mixControlled [] q mixH
  | .phase theta, [q] => modify (scaleWhere (·.testBit q) (· * Amplitude.phase theta) id)
  | .rx theta, [q] => mixControlled [] q (mixRx theta)
  | .ry theta, [q] => mixControlled [] q (mixRy theta)
  | .rz theta, [q] =>
    modify (scaleWhere (·.testBit q) (· * Amplitude.phase (theta / Scalar.two))
      (· * Amplitude.phase (-theta / Scalar.two)))
  | .u theta phi lambda, [q] => mixControlled [] q (mixU theta phi lambda)
  | .cx, [control, target] => mixControlled [control] target exchange
  | .cz, [control, target] =>
    modify (scaleWhere (fun i => i.testBit control && i.testBit target) (- ·) id)
  | .swap, [first, second] => mixSwapped first second exchange
  | .iswap, [first, second] => mixSwapped first second mixISwap
  | .ccx, [control, control', target] => mixControlled [control, control'] target exchange
  | _, _ => pure ()

/-- Checks the bits for a register of `n` qubits before anything is changed. -/
def apply [Scalar α] (n : Nat) (op : Operation α) (bits : List Nat) : Updating α Unit := do
  if bits.length ≠ op.arity then throw (.refused (.arity op bits.length))
  MonadExcept.ofExcept ((Statevector.checkBits op n [] bits).mapError .refused)
  perform op bits

variable {f : Amplitude α → Amplitude α → Amplitude α × Amplitude α} {amps : Array (Amplitude α)}

theorem run_read {i : Nat} (h : i < amps.size) : (read i).run.run amps = (.ok amps[i], amps) := by
  change (match amps[i]? with
    | some a => pure a
    | none => throw (.outOfBounds i amps.size) : Updating α (Amplitude α)).run.run amps = _
  rw [Array.getElem?_eq_getElem h]
  rfl

theorem run_write {i : Nat} (h : i < amps.size) (a : Amplitude α) :
    (write i a).run.run amps = (.ok (), amps.set i a) := by
  change (if i < amps.size then set (amps.setIfInBounds i a)
    else throw (.outOfBounds i amps.size) : Updating α Unit).run.run amps = _
  rw [if_pos h, Array.setIfInBounds_def, dif_pos h]
  rfl

theorem run_combine {i j : Nat} (hi : i < amps.size) (hj : j < amps.size) :
    (combine f i j).run.run amps = (.ok (), updatePair f amps i j) := by
  have hj' : j < (amps.set i (f amps[i] amps[j]).1).size := by rwa [Array.size_set]
  rw [combine, run_bind, run_read hi]
  simp only
  rw [run_bind, run_read hj]
  simp only
  rw [run_bind, run_write hi]
  simp only
  rw [run_write hj', updatePair, dif_pos ⟨hi, hj⟩]

/-- **A sweep within the bounds of the array ends as the one that makes new arrays.** -/
theorem run_sweepPairs {first : Nat → Bool} {partner : Nat → Nat}
    (h : ∀ i < amps.size, first i → partner i < amps.size) :
    (sweepPairs first partner f).run.run amps = (.ok (), exchangePairs first partner f amps) := by
  have hrun : ∀ n ≤ amps.size,
      ((List.range n).forM fun i => if first i then combine f i (partner i) else pure () :
        Updating α Unit).run.run amps =
        (.ok (), Nat.fold n
          (fun i _ acc => if first i then updatePair f acc i (partner i) else acc) amps) := by
    intro n hn
    induction n with
    | zero => rfl
    | succ n ih =>
      have hsize := size_fold_updatePair first partner f n amps
      rw [List.range_succ, List.forM_eq_forM, List.forM_append, List.forM_cons, List.forM_nil,
        bind_pure_unit, run_bind, ← List.forM_eq_forM, ih (Nat.le_of_succ_le hn), Nat.fold_succ]
      simp only
      cases hfirst : first n with
      | false => rfl
      | true =>
        rw [if_pos rfl, if_pos rfl, run_combine]
        · rwa [hsize]
        · rw [hsize]
          exact h n hn hfirst
  exact hrun amps.size le_rfl

variable {n : Nat} (hsize : amps.size = 1 <<< n)
include hsize

theorem run_mixControlled (controls : List Nat) {target : Nat} (h : target < n) :
    (mixControlled controls target f).run.run amps =
      (.ok (), CircuitExchange.mixControlled controls target f amps) := by
  refine run_sweepPairs fun i hi _ => ?_
  rw [hsize, Nat.one_shiftLeft] at *
  rw [setBit, Nat.one_shiftLeft]
  exact Nat.or_lt_two_pow hi (Nat.pow_lt_pow_right (by omega) h)

theorem run_mixSwapped {bit bit' : Nat} (h : bit < n) (h' : bit' < n) :
    (mixSwapped bit bit' f).run.run amps =
      (.ok (), CircuitExchange.mixSwapped bit bit' f amps) := by
  refine run_sweepPairs fun i hi _ => ?_
  rw [hsize] at *
  exact xor_lt_shift (xor_lt_shift hi (shift_lt_shift h)) (shift_lt_shift h')

/-- **An operation that fits runs within the bounds of the array**, and ends as its kernel does. -/
theorem run_perform [Scalar α] {op : Operation α} {bits : List Nat} (h : op.Fits bits n) :
    (perform op bits).run.run amps = (.ok (), kernel op bits amps) := by
  obtain ⟨hlength, -, hlt⟩ := h
  cases op
  case i | z | phase | rz =>
    obtain ⟨q, rfl⟩ := List.length_eq_one_iff.1 hlength
    rfl
  case cz =>
    obtain ⟨c, q, rfl⟩ := List.length_eq_two.1 hlength
    rfl
  case x | y | h | rx | ry | u =>
    obtain ⟨q, rfl⟩ := List.length_eq_one_iff.1 hlength
    exact run_mixControlled hsize [] (hlt q (by simp))
  case cx =>
    obtain ⟨c, q, rfl⟩ := List.length_eq_two.1 hlength
    exact run_mixControlled hsize [c] (hlt q (by simp))
  case swap | iswap =>
    obtain ⟨q, q', rfl⟩ := List.length_eq_two.1 hlength
    exact run_mixSwapped hsize (hlt q (by simp)) (hlt q' (by simp))
  case ccx =>
    obtain ⟨c, c', q, rfl⟩ := List.length_eq_three.1 hlength
    exact run_mixControlled hsize [c, c'] (hlt q (by simp))

end Updating

/-- **An operation in place ends with the state that applying it gives**, or is refused and leaves
the array as it was. -/
theorem Statevector.run_apply [Scalar α] (s : Statevector α) (op : Operation α)
    (bits : List Nat) :
    (Updating.apply s.qubitCount op bits).run.run s.amplitudes =
      match s.apply op bits with
      | .ok t => (.ok (), t.amplitudes)
      | .error e => (.error (.refused e), s.amplitudes) := by
  rw [Updating.apply, apply]
  by_cases hlength : bits.length = op.arity
  · rw [if_neg (not_not_intro hlength), if_neg (not_not_intro hlength)]
    cases hbits : checkBits op s.qubitCount [] bits with
    | error e => rfl
    | ok _ =>
      obtain ⟨hnodup, hlt⟩ := checkBits_eq_ok_iff.1 hbits
      have hfits : op.Fits bits s.qubitCount :=
        ⟨hlength, hnodup, fun bit hbit => (hlt bit hbit).1⟩
      exact Updating.run_perform s.size_eq hfits
  · rw [if_pos hlength, if_pos hlength]
    rfl

end InPlace

/-- **Every operation acts by its formula.** On bits that fit, an operation runs within the bounds
of the array it changes and ends with the state that applying it gives, in which each amplitude is
that of the formula, made of amplitudes of the state before. Other bits are an error before anything
is changed. The formulas take amplitudes from an index with a bit flipped or with two bits
exchanged. -/
theorem kernels_act_by_formula {α : Type} [Scalar α] :
    (∀ (s : Statevector α) (op : Operation α) (bits : List Nat),
      (op.Fits bits s.qubitCount → ∃ t, s.apply op bits = .ok t ∧
        (Updating.apply s.qubitCount op bits).run.run s.amplitudes = (.ok (), t.amplitudes) ∧
        t.qubitCount = s.qubitCount ∧ t.amplitudes.size = 2 ^ s.qubitCount ∧
        ∀ k < 2 ^ s.qubitCount, t.amplitudes.getD k 0 =
          op.newAmplitude bits (s.amplitudes.getD · 0) k) ∧
      (¬ op.Fits bits s.qubitCount → ∃ e, s.apply op bits = .error e ∧
        (Updating.apply s.qubitCount op bits).run.run s.amplitudes =
          (.error (.refused e), s.amplitudes))) ∧
    ∀ k bit bit' b : Nat,
      (flipBit k bit).testBit b = (if b = bit then !k.testBit b else k.testBit b) ∧
      (exchangeBits k bit bit').testBit b = k.testBit (Equiv.swap bit bit' b) := by
  refine ⟨fun s op bits => ⟨fun hfits => ?_, fun hfits => ?_⟩, fun k bit bit' b =>
    ⟨testBit_flipBit k bit b, testBit_exchangeBits k bit bit' b⟩⟩
  · have happly := apply_eq_ok_iff.2 ⟨hfits, rfl⟩
    have hrun := s.run_apply op bits
    rw [happly] at hrun
    refine ⟨_, happly, hrun, rfl, ?_, fun k hk => ?_⟩
    · rw [Statevector.size_eq, Nat.one_shiftLeft]
      rfl
    · rw [← Nat.one_shiftLeft] at hk
      exact (getD_kernel hfits s.size_eq hk).trans
        (op.entry_eq_newAmplitude hfits.length (s.amplitudes.getD · 0) k)
  · have hrun := s.run_apply op bits
    cases happly : s.apply op bits with
    | ok t => exact absurd (apply_eq_ok_iff.1 happly).1 hfits
    | error e =>
      rw [happly] at hrun
      exact ⟨e, rfl, hrun⟩

/-- Two controls on both sides of the target, and a control that is the target. -/
theorem kernels_act_by_formula_controlled :
    (∃ t, (Statevector.zero 3 : Statevector Float).apply .ccx [2, 0, 1] = .ok t ∧
      ∀ k < 2 ^ 3, t.amplitudes.getD k 0 =
        (Statevector.zero 3 : Statevector Float).amplitudes.getD
          (if k.testBit 2 && k.testBit 0 then flipBit k 1 else k) 0) ∧
    ∃ e, (Statevector.zero 3 : Statevector Float).apply .cx [1, 1] = .error e := by
  obtain ⟨t, happly, -, -, -, hformula⟩ :=
    (kernels_act_by_formula.1 (Statevector.zero 3 : Statevector Float) .ccx [2, 0, 1]).1
      ⟨rfl, by decide, by decide⟩
  obtain ⟨e, herror, -⟩ :=
    (kernels_act_by_formula.1 (Statevector.zero 3 : Statevector Float) .cx [1, 1]).2
      fun hfits => absurd hfits.nodup (by decide)
  exact ⟨⟨t, happly, hformula⟩, e, herror⟩

end CircuitExchange
