import Mathlib
import CircuitExchange.Proofs.Document.Export
import CircuitExchange.Proofs.Moment.Placement

/-!
A circuit of moments that calls have built up is packed, and packed moments are what their
operations are put together to, one after the other: each operation finds the moment it was in. So
the circuit comes back from its canonical form as it was, except for what is lost when the angles
are turned into radians and back.

* `MomentCircuit.Packed.exists_last`: the last operation is put where it is.
* `MomentCircuit.Packed.foldl_put`: packed moments are put together again.
* `MomentOperation.exists_call`: what an operation is exported as, and read back as.
* `moment_round_trip`: the circuit that comes back.
-/

namespace CircuitExchange

/-! ### Putting packed moments together -/

namespace MomentCircuit

variable {α : Type} {ms : List (Moment α)} {op : MomentOperation α}

/-- The moments with one more operation, put at its place. -/
def put (ms : List (Moment α)) (op : MomentOperation α) : List (Moment α) :=
  addAt op (place op.qubits ms) ms

/-- The place is after the last moment that shares a qubit. -/
theorem place_eq {n : ℕ} (hlater : ∀ j ≥ n, ∀ a ∈ ms.getD j [], Apart MomentOperation.qubits a op)
    (hbefore : ∀ j, j + 1 = n → ∃ a ∈ ms.getD j [], ¬ Apart MomentOperation.qubits a op) :
    place op.qubits ms = n := by
  have hleast := (addedAt_place op ms).earliest
  refine le_antisymm (hleast.2 fun j a ha hshared => ?_) ?_
  · by_contra hj
    exact hshared (hlater j (Nat.le_of_not_lt hj) a ha)
  · cases n with
    | zero => exact Nat.zero_le _
    | succ j =>
      obtain ⟨a, ha, hshared⟩ := hbefore j rfl
      exact hleast.1 j a ha hshared

theorem addAt_length (op : MomentOperation α) (ms : List (Moment α)) :
    addAt op ms.length ms = ms ++ [[op]] := by
  induction ms with
  | nil => rfl
  | cons m rest ih => rw [List.length_cons, addAt, ih, List.cons_append]

theorem addAt_length_append (op : MomentOperation α) (ms : List (Moment α)) (m : Moment α) :
    addAt op ms.length (ms ++ [m]) = ms ++ [m ++ [op]] := by
  induction ms with
  | nil => rfl
  | cons m' rest ih => rw [List.length_cons, List.cons_append, addAt, ih, List.cons_append]

/-- Moments stay packed with one more if each operation of it shares a qubit with the last one. -/
theorem packed_concat_iff {m : Moment α} :
    Packed (ms ++ [m]) ↔ Packed ms ∧ m ≠ [] ∧ m.Pairwise (Apart MomentOperation.qubits) ∧
      ∀ op ∈ m, ∀ j, j + 1 = ms.length →
        ∃ a ∈ ms.getD j [], ¬ Apart MomentOperation.qubits a op := by
  have hlast : (ms ++ [m]).getD ms.length [] = m := by
    rw [List.getD_append_right _ _ _ _ le_rfl, Nat.sub_self, List.getD_cons_zero]
  constructor
  · rintro ⟨hnonempty, hapart, hlinked⟩
    rw [List.mem_append, List.mem_singleton, not_or] at hnonempty
    rw [List.forall_mem_append, List.forall_mem_singleton] at hapart
    refine ⟨⟨hnonempty.1, hapart.1, fun j op hop => ?_⟩, Ne.symm hnonempty.2, hapart.2,
      fun op hop j hj => ?_⟩
    · have hj : j + 1 < ms.length := by
        by_contra hle
        rw [List.getD_eq_default _ _ (Nat.le_of_not_lt hle)] at hop
        cases hop
      rw [← List.getD_append _ [m] _ _ hj] at hop
      rw [← List.getD_append _ [m] _ _ (Nat.lt_of_succ_lt hj)]
      exact hlinked j op hop
    · rw [← hlast, ← hj] at hop
      rw [← List.getD_append _ [m] _ _ (Nat.lt_of_succ_le hj.le)]
      exact hlinked j op hop
  · rintro ⟨h, hne, hapart, hlinked⟩
    refine ⟨?_, ?_, fun j op hop => ?_⟩
    · rw [List.mem_append, List.mem_singleton, not_or]
      exact ⟨h.nonempty, hne.symm⟩
    · rw [List.forall_mem_append, List.forall_mem_singleton]
      exact ⟨h.apart, hapart⟩
    · have hj : j < ms.length := by
        by_contra hle
        rw [List.getD_append_right _ _ _ _ (by omega), List.getD_eq_default _ _ (by simp; omega)]
          at hop
        cases hop
      rw [List.getD_append _ _ _ _ hj]
      by_cases hlt : j + 1 < ms.length
      · rw [List.getD_append _ _ _ _ hlt] at hop
        exact h.linked j op hop
      · have heq : j + 1 = ms.length := by omega
        rw [heq, hlast] at hop
        exact hlinked op hop j heq

/-- **The last operation of packed moments is put where it is**, and those before it are packed. -/
theorem Packed.exists_last (h : Packed ms) (hne : ms ≠ []) :
    ∃ ms' op, Packed ms' ∧ put ms' op = ms ∧ ms.flatten = ms'.flatten ++ [op] := by
  obtain rfl | ⟨ms, m, rfl⟩ := List.eq_nil_or_concat' ms
  · exact absurd rfl hne
  obtain ⟨hms, hm, hapart, hlinked⟩ := packed_concat_iff.1 h
  obtain rfl | ⟨earlier, op, rfl⟩ := List.eq_nil_or_concat' m
  · exact absurd rfl hm
  have hop := hlinked op (List.mem_append_right _ (List.mem_singleton_self op))
  by_cases hearlier : earlier = []
  · -- the operation makes the last moment
    subst hearlier
    have hplace : place op.qubits ms = ms.length := by
      refine place_eq (fun j hj a ha => ?_) hop
      rw [List.getD_eq_default _ _ hj] at ha
      cases ha
    refine ⟨ms, op, hms, ?_, by simp⟩
    rw [put, hplace, addAt_length, List.nil_append]
  · -- the operation goes to the last moment
    rw [List.pairwise_append] at hapart
    have hplace : place op.qubits (ms ++ [earlier]) = ms.length := by
      refine place_eq (fun j hj a ha => ?_) fun j hj => ?_
      · obtain rfl | hlt := Nat.eq_or_lt_of_le hj
        · rw [List.getD_append_right _ _ _ _ le_rfl, Nat.sub_self, List.getD_cons_zero] at ha
          exact hapart.2.2 a ha op (List.mem_singleton_self op)
        · rw [List.getD_eq_default _ _ (by simpa using hlt)] at ha
          cases ha
      · rw [List.getD_append _ _ _ _ (Nat.lt_of_succ_le hj.le)]
        exact hop j hj
    refine ⟨ms ++ [earlier], op, packed_concat_iff.2 ⟨hms, hearlier, hapart.1,
      fun a ha => hlinked a (List.mem_append_left _ ha)⟩, ?_, by simp⟩
    rw [put, hplace, addAt_length_append]

/-- **Packed moments are what their operations are put together to.** -/
theorem Packed.foldl_put (h : Packed ms) : ms.flatten.foldl put [] = ms := by
  induction hops : ms.flatten using List.reverseRecOn generalizing ms with
  | nil =>
    have hms : ms = [] := by
      by_contra hne
      obtain ⟨ms', op, -, -, hflatten⟩ := h.exists_last hne
      rw [hops] at hflatten
      exact List.append_ne_nil_of_right_ne_nil _ (List.cons_ne_nil _ _) hflatten.symm
    rw [hms]
    rfl
  | append_singleton ops op ih =>
    have hne : ms ≠ [] := by
      rintro rfl
      exact List.append_ne_nil_of_right_ne_nil _ (List.cons_ne_nil _ _) hops.symm
    obtain ⟨ms', op', hms', hput, hflatten⟩ := h.exists_last hne
    obtain ⟨hold, hlast⟩ := List.append_inj' (hops.symm.trans hflatten) rfl
    obtain rfl := List.singleton_inj.1 hlast
    rw [List.foldl_append, ih hms' hold.symm]
    exact hput

end MomentCircuit

/-! ### Half-turns read as other numbers -/

section Exponents

variable {α β : Type}

def MomentGate.mapExponent (f : α → β) : MomentGate α → MomentGate β
  | i => i
  | h => h
  | x => x
  | y => y
  | z => z
  | s => s
  | t => t
  | cnot => cnot
  | cz => cz
  | swap => swap
  | toffoli => toffoli
  | iswap => iswap
  | rx exponent => rx (f exponent)
  | ry exponent => ry (f exponent)
  | rz exponent => rz (f exponent)
  | measure key => measure key

/-- The operation with its half-turns, if it has any, read as another number. -/
def MomentOperation.mapExponent (f : α → β) (op : MomentOperation α) : MomentOperation β :=
  ⟨op.gate.mapExponent f, op.qubits⟩

/-- The same moments of the same operations with their half-turns read as other numbers. -/
def MomentCircuit.mapExponents (f : α → β) (m : MomentCircuit α) : MomentCircuit β :=
  ⟨m.moments.map (List.map (MomentOperation.mapExponent f))⟩

theorem MomentGate.mapExponent_of_exponent? {f : α → α} {gate : MomentGate α}
    (h : gate.exponent? = none) : gate.mapExponent f = gate := by
  cases gate
  case rx | ry | rz => cases h
  all_goals rfl

namespace MomentCircuit

theorem operations_mapExponents (f : α → β) (m : MomentCircuit α) :
    (m.mapExponents f).operations = m.operations.map (MomentOperation.mapExponent f) :=
  List.map_flatten.symm

/-- A circuit without rotations has no half-turns. -/
theorem mapExponents_of_exponent? {f : α → α} {m : MomentCircuit α}
    (h : ∀ op ∈ m.operations, op.gate.exponent? = none) : m.mapExponents f = m := by
  have hmoment : ∀ moment ∈ m.moments, moment.map (MomentOperation.mapExponent f) = moment := by
    intro moment hmoment
    refine (List.map_congr_left fun op hop => ?_).trans (List.map_id moment)
    have hgate := h op (List.mem_flatten_of_mem hmoment hop)
    exact congrArg (MomentOperation.mk · op.qubits) (MomentGate.mapExponent_of_exponent? hgate)
  exact congrArg MomentCircuit.mk ((List.map_congr_left hmoment).trans (List.map_id m.moments))

/-- Only qubits decide whether moments are packed. -/
theorem Packed.mapExponents {m : MomentCircuit α} (h : Packed m.moments) (f : α → β) :
    Packed (m.mapExponents f).moments := by
  have hgetD : ∀ j, (m.mapExponents f).moments.getD j [] =
      (m.moments.getD j []).map (MomentOperation.mapExponent f) := fun _ =>
    List.getD_map _ [] (List.map (MomentOperation.mapExponent f))
  refine ⟨fun hnil => ?_, List.forall_mem_map.2 fun moment hmoment => ?_, fun j => ?_⟩
  · obtain ⟨moment, hmoment, hempty⟩ := List.mem_map.1 hnil
    exact h.nonempty (List.map_eq_nil_iff.1 hempty ▸ hmoment)
  · exact List.pairwise_map.2 (h.apart moment hmoment)
  · rw [hgetD, hgetD, List.forall_mem_map]
    intro op hop
    obtain ⟨a, ha, hshared⟩ := h.linked j op hop
    exact ⟨_, List.mem_map_of_mem ha, hshared⟩

end MomentCircuit

end Exponents

/-! ### There and back -/

/-- The gate has a canonical one, and its angle in radians is in the range of double precision. -/
structure MomentGate.Convertible (gate : MomentGate Float) : Prop where
  not_measurement : gate.isMeasurement = false
  ne_iswap : gate ≠ .iswap
  finite : ∀ x ∈ gate.radians, x.isFinite

instance : DecidablePred MomentGate.Convertible := fun gate =>
  decidable_of_iff
    (gate.isMeasurement = false ∧ gate ≠ .iswap ∧ ∀ x ∈ gate.radians, x.isFinite)
    ⟨fun ⟨hmeasurement, hswap, hfinite⟩ => ⟨hmeasurement, hswap, hfinite⟩,
      fun h => ⟨h.not_measurement, h.ne_iswap, h.finite⟩⟩

/-- Half-turns turned into radians and back. -/
def MomentGate.returned (exponent : Float) : Float := exponent * Scalar.pi / Scalar.pi

/-- What a gate is exported as, and what that is stored as again. -/
theorem MomentGate.Convertible.exists_canonical {gate : MomentGate Float} (h : gate.Convertible) :
    ∃ name angles, MomentOperation.canonicalGate? gate = .ok (some (name, angles)) ∧
      gate.qubitCount? = some name.qubitCount ∧ angles.length = name.paramCount ∧
      (∀ a ∈ angles, a.IsFinite) ∧
      MomentGate.Stores name (angles.map Angle.eval) (gate.mapExponent returned) := by
  cases gate
  case iswap => exact absurd rfl h.ne_iswap
  case measure => exact absurd h.not_measurement Bool.noConfusion
  case rx exponent | ry exponent | rz exponent =>
    refine ⟨_, [MomentOperation.angle exponent], rfl, rfl, rfl, ?_, ?_⟩
    · rw [List.forall_mem_singleton, isFinite_angle_iff]
      exact h.finite _ (List.mem_singleton_self _)
    · rw [List.map_singleton, Decimal.eval_angle_eq_product]
      constructor
  all_goals
    refine ⟨_, [], rfl, rfl, rfl, fun a ha => absurd ha List.not_mem_nil, ?_⟩
    constructor

/-- **An operation is exported as a call, which is read back as the operation** with its half-turns
turned into radians and back. -/
theorem MomentOperation.exists_call {op : MomentOperation Float} (hvalid : op.validate = .ok ())
    (hgate : op.gate.Convertible) :
    ∃ call, op.call? = .ok (some call) ∧ Record.parse call.token = .ok call.record ∧
      call.record.WellFormed ∧
      MomentOperation.Stores call.record (op.mapExponent MomentGate.returned) := by
  obtain ⟨hcount, hnodup⟩ := validate_eq_ok_iff.1 hvalid
  obtain ⟨name, angles, hcanonical, hqubits, hangles, hfinite, hstores⟩ := hgate.exists_canonical
  have hwellFormed : (⟨name, angles, op.qubits⟩ : GateCall Float).record.WellFormed :=
    ⟨hcount _ hqubits, (List.length_map _).trans hangles, hnodup⟩
  refine ⟨⟨name, angles, op.qubits⟩, ?_, GateCall.parse_token_of_wellFormed hwellFormed hfinite,
    hwellFormed, hstores, rfl⟩
  rw [MomentOperation.call?, hvalid, hcanonical]
  rfl

namespace MomentCircuit

/-- Records are put one after the other, as what they are stored as. -/
theorem foldlM_appendRecord_eq {α : Type} [Scalar α] {rs : List (Record α)}
    {ops : List (MomentOperation α)}
    (h : List.Forall₂ (fun r op => r.WellFormed ∧ MomentOperation.Stores r op) rs ops)
    (ms : List (Moment α)) : rs.foldlM appendRecord ⟨ms⟩ = .ok ⟨ops.foldl put ms⟩ := by
  induction h generalizing ms with
  | nil => rfl
  | @cons r op rs ops hop _ ih =>
    rw [List.foldlM_cons, appendRecord_of_stores hop.1 hop.2, List.foldl_cons]
    exact ih (put ms op)

/-- **A circuit comes back** with its half-turns turned into radians and back. -/
theorem Reachable.exists_toCircuit {m : MomentCircuit Float} (h : m.Reachable)
    (hgates : ∀ op ∈ m.operations, op.gate.Convertible) :
    ∃ c, m.toCircuit = .ok c ∧ ofCircuit c = .ok (m.mapExponents MomentGate.returned) := by
  have hexported := fun op hop => MomentOperation.exists_call (h.validate op hop) (hgates op hop)
  have : Nonempty (GateCall Float) := ⟨⟨.i, [], []⟩⟩
  choose! call hcall hparse hwellFormed hstores using hexported
  have hcalls : m.calls = .ok (m.operations.map call) :=
    calls_of_forall₂ (List.forall₂_map_right_iff.2 (List.forall₂_same.2 hcall))
  have hparsed : Circuit.gates ⟨(m.operations.map call).map GateCall.token⟩ =
      .ok (m.operations.map fun op => (call op).record) := by
    rw [Circuit.gates_eq_ok_iff, List.map_map, List.forall₂_map_left_iff,
      List.forall₂_map_right_iff]
    exact List.forall₂_same.2 hparse
  have hstored : List.Forall₂ (fun r op => r.WellFormed ∧ MomentOperation.Stores r op)
      (m.operations.map fun op => (call op).record)
      (m.mapExponents MomentGate.returned).operations := by
    rw [operations_mapExponents, List.forall₂_map_left_iff, List.forall₂_map_right_iff]
    exact List.forall₂_same.2 fun op hop => ⟨hwellFormed op hop, hstores op hop⟩
  refine ⟨⟨(m.operations.map call).map GateCall.token⟩, ?_, ?_⟩
  · rw [toCircuit, hcalls]
    rfl
  · rw [ofCircuit, hparsed]
    refine (foldlM_appendRecord_eq hstored []).trans ?_
    rw [operations, (h.packed.mapExponents MomentGate.returned).foldl_put]

end MomentCircuit

/-- **Circuits of moments come back.** A circuit that edits have built up of gates with a canonical
form, with angles in range, is exported and imported as the same moments of the same operations,
where half-turns have been turned into radians and back. Without rotations it is the same
circuit. -/
theorem moment_round_trip {m : MomentCircuit Float} (h : m.Reachable)
    (hgates : ∀ op ∈ m.operations, op.gate.Convertible) :
    ∃ c, m.toCircuit = .ok c ∧
      MomentCircuit.ofCircuit c =
        .ok (m.mapExponents fun exponent => exponent * Scalar.pi / Scalar.pi) ∧
      ((∀ op ∈ m.operations, op.gate.exponent? = none) → MomentCircuit.ofCircuit c = .ok m) := by
  obtain ⟨c, hexport, himport⟩ := h.exists_toCircuit hgates
  refine ⟨c, hexport, himport, fun hplain => ?_⟩
  rw [himport, MomentCircuit.mapExponents_of_exponent? hplain]

/-- A rotation that was appended last and went to the first moment, and a circuit without one. -/
theorem moment_round_trip_three :
    (∃ c, MomentCircuit.toCircuit ⟨[[⟨.h, [0]⟩, ⟨.rz Scalar.half, [2]⟩], [⟨.cnot, [0, 1]⟩]]⟩ =
        .ok c ∧
      MomentCircuit.ofCircuit c = .ok ⟨[[⟨.h, [0]⟩,
        ⟨.rz (Scalar.half * Scalar.pi / Scalar.pi), [2]⟩], [⟨.cnot, [0, 1]⟩]]⟩) ∧
    ∃ c, MomentCircuit.toCircuit ⟨[[⟨.h, [0]⟩], [⟨.cnot, [0, 1]⟩]]⟩ = .ok c ∧
      MomentCircuit.ofCircuit c = .ok ⟨[[⟨.h, [0]⟩], [⟨.cnot, [0, 1]⟩]]⟩ := by
  have hplain : MomentCircuit.Reachable (α := Float) ⟨[[⟨.h, [0]⟩], [⟨.cnot, [0, 1]⟩]]⟩ :=
    (MomentCircuit.Reachable.empty.edit (.push .h [0])).edit (.push .cnot [0, 1])
  have hrotation := hplain.edit (.push (.rz Scalar.half) [2])
  obtain ⟨c, hexport, himport, -⟩ := moment_round_trip hrotation (by decide +kernel)
  obtain ⟨c', hexport', -, himport'⟩ := moment_round_trip hplain (by decide +kernel)
  exact ⟨⟨c, hexport, himport⟩, c', hexport', himport' (by decide +kernel)⟩

end CircuitExchange
