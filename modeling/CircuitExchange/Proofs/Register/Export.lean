import Mathlib
import CircuitExchange.Register.Conversion
import CircuitExchange.Proofs.Decimal.Sum
import CircuitExchange.Proofs.State.Size

/-!
Register circuits are exported. An instruction that was appended has the qubits its gate needs, so
its calls stand for well formed records on the mirrored qubits, and with finite angles all of their
tokens parse.

* `RegisterCircuit.Built`: the circuits that appending leads to.
* `RegisterCircuit.calls_eq`: the calls of such a circuit, instruction by instruction.
* `RegisterCircuit.gates_exported`: the exported tokens are read back as the records of the calls.
* `RegisterCircuit.toNat_sizeOf_exported`: the exported circuit has no qubits above the first one
  used.
-/

namespace CircuitExchange

/-! ### Appended instructions -/

section Append

variable {α : Type}

/-- The circuits that appending to an empty one leads to. -/
inductive RegisterCircuit.Built : RegisterCircuit α → Prop
  | new (qubitCount clbitCount : UInt32) : Built (.new qubitCount clbitCount)
  | append {c c' : RegisterCircuit α} {gate : RegisterGate α} {qubits : List Qubit}
      (h : Built c) (happend : c.append gate qubits = .ok c') : Built c'

/-- The instruction has as many qubits as its gate needs, all different and within the register. -/
structure RegisterInstruction.Valid (inst : RegisterInstruction α) (size : UInt32) : Prop where
  length : inst.qubits.length = inst.gate.qubitCount
  nodup : inst.qubits.Nodup
  lt : ∀ q ∈ inst.qubits, q < size

theorem checkQubits_eq_ok_iff {gate : String} {size : UInt32} {seen qubits : List Qubit} :
    RegisterCircuit.checkQubits gate size seen qubits = .ok () ↔
      qubits.Nodup ∧ ∀ q ∈ qubits, q < size ∧ q ∉ seen := by
  induction qubits generalizing seen with
  | nil => simp [RegisterCircuit.checkQubits]
  | cons q rest ih =>
    rw [RegisterCircuit.checkQubits]
    by_cases hsize : size ≤ q
    · simp [hsize, UInt32.not_lt.2 hsize]
    · by_cases hseen : q ∈ seen
      · simp [hsize, hseen]
      · rw [if_neg hsize, if_neg (by simpa using hseen), ih]
        simp only [List.nodup_cons, List.mem_cons, List.mem_append, List.not_mem_nil, or_false]
        grind

/-- What is appended is valid and stands at the end. -/
theorem RegisterCircuit.of_append {c c' : RegisterCircuit α} {gate : RegisterGate α}
    {qubits : List Qubit} (h : c.append gate qubits = .ok c') :
    RegisterInstruction.Valid ⟨gate, qubits⟩ c.qubitCount ∧
      c' = { c with instructions := c.instructions ++ [⟨gate, qubits⟩] } := by
  obtain ⟨_, hcheck, h⟩ := bind_eq_ok h
  obtain rfl := Except.ok.inj h
  rw [check] at hcheck
  by_cases hlength : qubits.length = gate.qubitCount
  · rw [if_neg (not_not_intro hlength)] at hcheck
    obtain ⟨_, hqubits, -⟩ := bind_eq_ok hcheck
    obtain ⟨hnodup, hlt⟩ := checkQubits_eq_ok_iff.1 hqubits
    exact ⟨⟨hlength, hnodup, fun q hq => (hlt q hq).1⟩, rfl⟩
  · rw [if_pos hlength] at hcheck
    cases hcheck

/-- **Every instruction of a circuit is valid**, however it was built. -/
theorem RegisterCircuit.Built.valid {c : RegisterCircuit α} (h : c.Built) :
    ∀ inst ∈ c.instructions, inst.Valid c.qubitCount := by
  induction h with
  | new => exact fun inst hinst => absurd hinst List.not_mem_nil
  | append _ happend ih =>
    obtain ⟨hvalid, rfl⟩ := of_append happend
    intro inst hinst
    rcases List.mem_append.1 hinst with hold | hnew
    · exact ih inst hold
    · rwa [List.mem_singleton.1 hnew]

end Append

/-! ### Calls -/

/-- The qubit counted from the other end of the register. -/
def Qubit.mirrored (size : UInt32) (q : Qubit) : Qubit := size - 1 - q

section Mirrored

variable {size : UInt32} {q q' : Qubit}

/-- Only qubits of the register can be counted from its other end. -/
theorem reversed_eq_ok_iff : q.reversed size = .ok q' ↔ q < size ∧ q.mirrored size = q' := by
  rw [Qubit.reversed]
  by_cases h : size ≤ q
  · rw [if_pos h]
    exact ⟨nofun, fun hlt => absurd h (UInt32.not_le.2 hlt.1)⟩
  · rw [if_neg h]
    constructor
    · intro heq
      exact ⟨UInt32.not_le.1 h, Except.ok.inj heq⟩
    · rintro ⟨-, rfl⟩
      rfl

theorem mapM_reversed_eq_ok_iff {qs qs' : List Qubit} :
    qs.mapM (Qubit.reversed · size) = .ok qs' ↔
      (∀ q ∈ qs, q < size) ∧ qs.map (Qubit.mirrored size) = qs' :=
  mapM_eq_ok_iff_map fun _ _ => reversed_eq_ok_iff

theorem Qubit.toNat_mirrored (h : q < size) :
    (q.mirrored size).toNat = size.toNat - 1 - q.toNat := by
  rw [UInt32.lt_iff_toNat_lt] at h
  have hone : (size - 1).toNat = size.toNat - 1 := by
    refine UInt32.toNat_sub_of_le _ _ ?_
    rw [UInt32.le_iff_toNat_le, UInt32.toNat_one]
    omega
  rw [mirrored, UInt32.toNat_sub_of_le, hone]
  rw [UInt32.le_iff_toNat_le, hone]
  omega

theorem Qubit.mirrored_inj (h : q < size) (h' : q' < size)
    (heq : q.mirrored size = q'.mirrored size) : q = q' := by
  have hnat := congrArg UInt32.toNat heq
  rw [toNat_mirrored h, toNat_mirrored h'] at hnat
  rw [UInt32.lt_iff_toNat_lt] at h h'
  apply UInt32.toNat_inj.1
  omega

end Mirrored

section Calls

variable {α : Type}

/-- The gate is not one of the two that have no canonical counterpart. -/
structure RegisterGate.Exportable (gate : RegisterGate α) : Prop where
  ne_sdg : gate ≠ .sdg
  ne_tdg : gate ≠ .tdg

/-- The call is one of a gate on the qubits, with the numbers of qubits and angles its name
needs. -/
structure GateCall.Fits (call : GateCall α) (gate : RegisterGate α) (qubits : List Qubit) :
    Prop where
  qubits : call.qubits = qubits
  qubitCount : call.name.qubitCount = gate.qubitCount
  angleCount : call.angles.length = call.name.paramCount

theorem exists_gateCalls {gate : RegisterGate α} (h : gate.Exportable) (qubits : List Qubit) :
    ∃ calls, RegisterInstruction.gateCalls gate qubits = .ok calls ∧
      (calls = [] ↔ gate.isMeasurement) ∧ ∀ call ∈ calls, call.Fits gate qubits := by
  cases gate
  case sdg => exact absurd rfl h.ne_sdg
  case tdg => exact absurd rfl h.ne_tdg
  case measure => exact ⟨[], rfl, by simp [RegisterGate.isMeasurement], by simp⟩
  case u2 | u3 =>
    refine ⟨_, rfl, by simp [RegisterGate.isMeasurement, RegisterInstruction.euler], ?_⟩
    simp only [RegisterInstruction.euler, List.forall_mem_cons]
    exact ⟨⟨rfl, rfl, rfl⟩, ⟨rfl, rfl, rfl⟩, ⟨rfl, rfl, rfl⟩, by simp⟩
  all_goals
    refine ⟨_, rfl, by simp [RegisterGate.isMeasurement], ?_⟩
    rw [List.forall_mem_singleton]
    exact ⟨rfl, rfl, rfl⟩

/-- The calls that an instruction is exported as. -/
def RegisterInstruction.exported (size : UInt32) (inst : RegisterInstruction α) :
    List (GateCall α) :=
  (gateCalls inst.gate (inst.qubits.map (Qubit.mirrored size))).toOption.getD []

section Instruction

variable {inst : RegisterInstruction α} {size : UInt32} (hvalid : inst.Valid size)
  (hgate : inst.gate.Exportable)

theorem gateCalls_eq_exported (hgate : inst.gate.Exportable) :
    RegisterInstruction.gateCalls inst.gate (inst.qubits.map (Qubit.mirrored size)) =
      .ok (inst.exported size) := by
  obtain ⟨calls, hcalls, -⟩ := exists_gateCalls hgate (inst.qubits.map (Qubit.mirrored size))
  rw [RegisterInstruction.exported, hcalls]
  rfl

theorem exported_eq_nil_iff (hgate : inst.gate.Exportable) :
    inst.exported size = [] ↔ inst.gate.isMeasurement := by
  obtain ⟨calls, hcalls, hnil, -⟩ :=
    exists_gateCalls hgate (inst.qubits.map (Qubit.mirrored size))
  obtain rfl := Except.ok.inj (hcalls.symm.trans (gateCalls_eq_exported hgate))
  exact hnil

theorem fits_of_mem_exported (hgate : inst.gate.Exportable) {call : GateCall α}
    (hcall : call ∈ inst.exported size) :
    call.Fits inst.gate (inst.qubits.map (Qubit.mirrored size)) := by
  obtain ⟨calls, hcalls, -, hfits⟩ :=
    exists_gateCalls hgate (inst.qubits.map (Qubit.mirrored size))
  obtain rfl := Except.ok.inj (hcalls.symm.trans (gateCalls_eq_exported hgate))
  exact hfits call hcall

include hvalid hgate

theorem RegisterInstruction.calls_eq : inst.calls size = .ok (inst.exported size) := by
  rw [calls, if_neg (not_not_intro hvalid.length), mapM_reversed_eq_ok_iff.2 ⟨hvalid.lt, rfl⟩]
  exact congrArg (Except.mapError _) (gateCalls_eq_exported hgate)

theorem wellFormed_record_of_mem_exported [Scalar α] {call : GateCall α}
    (hcall : call ∈ inst.exported size) : call.record.WellFormed := by
  have hfits := fits_of_mem_exported hgate hcall
  refine ⟨?_, ?_, ?_⟩
  · rw [GateCall.record, hfits.qubits, hfits.qubitCount, List.length_map, hvalid.length]
  · rw [GateCall.record, List.length_map, hfits.angleCount]
  · rw [GateCall.record, hfits.qubits]
    exact hvalid.nodup.map_on fun q hq q' hq' heq =>
      Qubit.mirrored_inj (hvalid.lt q hq) (hvalid.lt q' hq') heq

end Instruction

namespace RegisterCircuit

variable {c : RegisterCircuit α}

/-- Every instruction is valid and has a canonical counterpart. -/
def Convertible (c : RegisterCircuit α) : Prop :=
  ∀ inst ∈ c.instructions, inst.Valid c.qubitCount ∧ inst.gate.Exportable

/-- The calls of the whole circuit. -/
def exported (c : RegisterCircuit α) : List (GateCall α) :=
  c.instructions.flatMap (·.exported c.qubitCount)

/-- **A circuit is exported instruction by instruction.** -/
theorem calls_eq (h : c.Convertible) : c.calls = .ok c.exported := by
  have hcalls : c.instructions.mapM (RegisterInstruction.calls c.qubitCount) =
      .ok (c.instructions.map (·.exported c.qubitCount)) := by
    rw [mapM_eq_ok_iff, List.forall₂_map_right_iff]
    exact List.forall₂_same.2 fun inst hinst =>
      RegisterInstruction.calls_eq (h inst hinst).1 (h inst hinst).2
  rw [calls, hcalls]
  rfl

theorem wellFormed_records [Scalar α] (h : c.Convertible) :
    ∀ r ∈ c.exported.map GateCall.record, r.WellFormed := by
  intro r hr
  obtain ⟨call, hcall, rfl⟩ := List.mem_map.1 hr
  obtain ⟨inst, hinst, hcall⟩ := List.mem_flatMap.1 hcall
  exact wellFormed_record_of_mem_exported (h inst hinst).1 (h inst hinst).2 hcall

end RegisterCircuit

end Calls

/-! ### Angles -/

section Angles

variable {α β : Type} (f : α → β)

/-- The formula with its numbers read as other numbers. -/
def Angle.map : Angle α → Angle β
  | .value x => .value (f x)
  | .pi => .pi
  | .twoPi => .twoPi
  | .halfPi => .halfPi
  | .minusHalfPi x => .minusHalfPi (f x)
  | .plusHalfPi x => .plusHalfPi (f x)

/-- The call with its angles read as other numbers. -/
def GateCall.mapAngles (call : GateCall α) : GateCall β :=
  ⟨call.name, call.angles.map (Angle.map f), call.qubits⟩

/-- The gate with its angles read as other numbers. -/
def RegisterGate.mapAngles : RegisterGate α → RegisterGate β
  | .id => .id
  | .h => .h
  | .x => .x
  | .y => .y
  | .z => .z
  | .s => .s
  | .sdg => .sdg
  | .t => .t
  | .tdg => .tdg
  | .cx => .cx
  | .cz => .cz
  | .swap => .swap
  | .ccx => .ccx
  | .rx theta => .rx (f theta)
  | .ry theta => .ry (f theta)
  | .rz theta => .rz (f theta)
  | .u1 lambda => .u1 (f lambda)
  | .u2 phi lambda => .u2 (f phi) (f lambda)
  | .u3 theta phi lambda => .u3 (f theta) (f phi) (f lambda)
  | .measure clbit => .measure clbit

/-- The instruction with its angles read as other numbers. -/
def RegisterInstruction.mapAngles (inst : RegisterInstruction α) : RegisterInstruction β :=
  ⟨inst.gate.mapAngles f, inst.qubits⟩

/-- The circuit with its angles read as other numbers. -/
def RegisterCircuit.mapAngles (c : RegisterCircuit α) : RegisterCircuit β :=
  ⟨c.qubitCount, c.clbitCount, c.instructions.map (RegisterInstruction.mapAngles f)⟩

theorem RegisterGate.Exportable.mapAngles {gate : RegisterGate α} (h : gate.Exportable) :
    (gate.mapAngles f).Exportable := by
  cases gate
  case sdg => exact absurd rfl h.ne_sdg
  case tdg => exact absurd rfl h.ne_tdg
  all_goals exact ⟨nofun, nofun⟩

theorem RegisterInstruction.Valid.mapAngles {inst : RegisterInstruction α} {size : UInt32}
    (h : inst.Valid size) : (inst.mapAngles f).Valid size := by
  refine ⟨h.length.trans ?_, h.nodup, h.lt⟩
  rw [RegisterInstruction.mapAngles]
  cases inst.gate <;> rfl

theorem RegisterCircuit.Convertible.mapAngles {c : RegisterCircuit α} (h : c.Convertible) :
    (c.mapAngles f).Convertible := by
  intro inst hinst
  obtain ⟨inst, hmem, rfl⟩ := List.mem_map.1 hinst
  exact ⟨(h inst hmem).1.mapAngles f, (h inst hmem).2.mapAngles f⟩

theorem RegisterInstruction.exported_mapAngles (size : UInt32) (inst : RegisterInstruction α) :
    (inst.mapAngles f).exported size = (inst.exported size).map (GateCall.mapAngles f) := by
  obtain ⟨gate, qubits⟩ := inst
  cases gate <;> rfl

/-- Reading the angles of a circuit as other numbers does so in its calls. -/
theorem RegisterCircuit.exported_mapAngles (c : RegisterCircuit α) :
    (c.mapAngles f).exported = c.exported.map (GateCall.mapAngles f) := by
  rw [exported, exported, mapAngles, List.flatMap_map, List.map_flatMap]
  exact congrArg (List.flatMap · _) (funext fun inst =>
    RegisterInstruction.exported_mapAngles f c.qubitCount inst)

end Angles

/-! ### Tokens -/

section Tokens

theorem isSmall_halfPi : Decimal.IsSmall (Scalar.pi / Scalar.two) := by
  unfold Decimal.IsSmall
  decide +kernel

/-- A call with finite angles that stands for a well formed record is read back as the record. -/
theorem GateCall.parse_token_of_wellFormed {call : GateCall Float} (h : call.record.WellFormed)
    (hfinite : ∀ a ∈ call.angles, a.IsFinite) : Record.parse call.token = .ok call.record :=
  (Shaped.of_wellFormed_record h).parse_token_eq_ok_iff.2 ⟨hfinite, rfl⟩

/-- The rotations of a general rotation have finite angles if it has: a quarter turn is too small to
take a number out of range. -/
theorem isFinite_euler_iff {theta : Angle Float} {phi lambda : Float} {qubits : List Qubit} :
    (∀ call ∈ RegisterInstruction.euler theta phi lambda qubits, ∀ a ∈ call.angles, a.IsFinite) ↔
      theta.IsFinite ∧ phi.isFinite ∧ lambda.isFinite := by
  simp only [RegisterInstruction.euler, List.forall_mem_cons, List.not_mem_nil, false_imp_iff,
    implies_true, and_true]
  constructor
  · rintro ⟨hlambda, htheta, hphi⟩
    exact ⟨htheta, hphi.1, hlambda.1⟩
  · rintro ⟨htheta, hphi, hlambda⟩
    exact ⟨⟨hlambda, Decimal.isFinite_sub hlambda isSmall_halfPi⟩, htheta,
      ⟨hphi, Decimal.isFinite_add hphi isSmall_halfPi⟩⟩

/-- **Finite angles are exported as finite angles**, and only these. -/
theorem isFinite_exported_iff {inst : RegisterInstruction Float} {size : UInt32} :
    (∀ call ∈ inst.exported size, ∀ a ∈ call.angles, a.IsFinite) ↔
      ∀ x ∈ inst.gate.angles, x.isFinite := by
  obtain ⟨gate, qubits⟩ := inst
  cases gate
  case u2 phi lambda =>
    refine isFinite_euler_iff.trans ?_
    simp [RegisterGate.angles, Angle.IsFinite]
  case u3 theta phi lambda =>
    refine isFinite_euler_iff.trans ?_
    simp [RegisterGate.angles, Angle.IsFinite]
  case rx theta | ry theta | rz theta | u1 theta =>
    rw [RegisterGate.angles, List.forall_mem_singleton]
    exact List.forall_mem_singleton.trans List.forall_mem_singleton
  case sdg | tdg | measure => exact iff_of_true nofun nofun
  all_goals
    refine iff_of_true ?_ nofun
    exact List.forall_mem_singleton.2 nofun

namespace RegisterCircuit

variable {c : RegisterCircuit Float}

/-- The calls of a circuit with finite angles are read back as their records. -/
theorem gates_exported (h : c.Convertible)
    (hfinite : ∀ inst ∈ c.instructions, ∀ x ∈ inst.gate.angles, x.isFinite) :
    Circuit.gates ⟨c.exported.map GateCall.token⟩ = .ok (c.exported.map GateCall.record) := by
  rw [Circuit.gates_eq_ok_iff, List.forall₂_map_left_iff, List.forall₂_map_right_iff]
  refine List.forall₂_same.2 fun call hcall => ?_
  have hwellFormed := wellFormed_records h _ (List.mem_map_of_mem hcall)
  obtain ⟨inst, hinst, hcall⟩ := List.mem_flatMap.1 hcall
  exact GateCall.parse_token_of_wellFormed hwellFormed
    (isFinite_exported_iff.2 (hfinite inst hinst) call hcall)

theorem toCircuit_eq (h : c.Convertible) :
    c.toCircuit = .ok ⟨c.exported.map GateCall.token⟩ := by
  rw [toCircuit, calls_eq h]
  rfl

end RegisterCircuit

end Tokens

/-! ### Sizes -/

namespace RegisterCircuit

variable {α : Type} {c : RegisterCircuit α}

/-- The qubits that are acted on. Measurements do not count. -/
def usedQubits (c : RegisterCircuit α) : List Qubit :=
  (c.instructions.filter (!·.gate.isMeasurement)).flatMap (·.qubits)

/-- The least qubit that is acted on, or the size of the register if there is none. -/
def leastUsed (c : RegisterCircuit α) : Nat :=
  (c.usedQubits.map UInt32.toNat).min?.getD c.qubitCount.toNat

theorem mem_usedQubits {q : Qubit} : q ∈ c.usedQubits ↔
    ∃ inst ∈ c.instructions, ¬ inst.gate.isMeasurement ∧ q ∈ inst.qubits := by
  simp [usedQubits, and_assoc]

theorem leastUsed_mapAngles {β : Type} (c : RegisterCircuit α) (f : α → β) :
    (c.mapAngles f).leastUsed = c.leastUsed := by
  have hmeasure : ∀ inst : RegisterInstruction α,
      (inst.mapAngles f).gate.isMeasurement = inst.gate.isMeasurement := by
    rintro ⟨gate, qubits⟩
    cases gate <;> rfl
  have hused : (c.mapAngles f).usedQubits = c.usedQubits := by
    rw [usedQubits, usedQubits, mapAngles, List.filter_map, List.flatMap_map]
    simp only [Function.comp_def, hmeasure]
    rfl
  rw [leastUsed, hused]
  rfl

/-- The least qubit is one that is acted on, below all others. -/
theorem leastUsed_spec : (c.usedQubits = [] ∧ c.leastUsed = c.qubitCount.toNat) ∨
    ∃ q ∈ c.usedQubits, q.toNat = c.leastUsed ∧ ∀ q' ∈ c.usedQubits, c.leastUsed ≤ q'.toNat := by
  cases hmin : (c.usedQubits.map UInt32.toNat).min? with
  | none =>
    have hnil := List.map_eq_nil_iff.1 (List.min?_eq_none_iff.1 hmin)
    exact .inl ⟨hnil, by rw [leastUsed, hmin]; rfl⟩
  | some least =>
    have hleast : c.leastUsed = least := by
      rw [leastUsed, hmin]
      rfl
    obtain ⟨hmem, hle⟩ := List.min?_eq_some_iff.1 hmin
    obtain ⟨q, hq, rfl⟩ := List.mem_map.1 hmem
    exact .inr ⟨q, hq, hleast.symm, fun q' hq' => hleast ▸ hle _ (List.mem_map_of_mem hq')⟩

theorem leastUsed_le {q : Qubit} (h : q ∈ c.usedQubits) : c.leastUsed ≤ q.toNat := by
  rcases leastUsed_spec (c := c) with ⟨hnil, -⟩ | ⟨_, -, -, hle⟩
  · rw [hnil] at h
    exact absurd h List.not_mem_nil
  · exact hle q h

theorem lt_of_mem_usedQubits (h : c.Convertible) {q : Qubit} (hq : q ∈ c.usedQubits) :
    q < c.qubitCount := by
  obtain ⟨inst, hinst, -, hq⟩ := mem_usedQubits.1 hq
  exact (h inst hinst).1.lt q hq

theorem leastUsed_le_qubitCount (h : c.Convertible) : c.leastUsed ≤ c.qubitCount.toNat := by
  rcases leastUsed_spec (c := c) with ⟨-, hleast⟩ | ⟨q, hq, hleast, -⟩
  · exact hleast.le
  · rw [← hleast]
    exact (UInt32.lt_iff_toNat_lt.1 (lt_of_mem_usedQubits h hq)).le

/-- The qubits of the calls are those that are acted on, mirrored. -/
theorem mem_qubits_exported (h : c.Convertible) {q : Qubit} :
    q ∈ c.exported.flatMap GateCall.qubits ↔
      ∃ q' ∈ c.usedQubits, q'.mirrored c.qubitCount = q := by
  constructor
  · intro hq
    obtain ⟨call, hcall, hq⟩ := List.mem_flatMap.1 hq
    obtain ⟨inst, hinst, hcall⟩ := List.mem_flatMap.1 hcall
    have hgate := (h inst hinst).2
    rw [(fits_of_mem_exported hgate hcall).qubits] at hq
    obtain ⟨q', hq', rfl⟩ := List.mem_map.1 hq
    refine ⟨q', mem_usedQubits.2 ⟨inst, hinst, fun hmeasure => ?_, hq'⟩, rfl⟩
    rw [(exported_eq_nil_iff hgate).2 hmeasure] at hcall
    exact absurd hcall List.not_mem_nil
  · rintro ⟨q', hq', rfl⟩
    obtain ⟨inst, hinst, hmeasure, hq'⟩ := mem_usedQubits.1 hq'
    have hgate := (h inst hinst).2
    have hne : inst.exported c.qubitCount ≠ [] := mt (exported_eq_nil_iff hgate).1 hmeasure
    obtain ⟨call, hcall⟩ := List.exists_mem_of_ne_nil _ hne
    refine List.mem_flatMap.2 ⟨call, List.mem_flatMap.2 ⟨inst, hinst, hcall⟩, ?_⟩
    rw [(fits_of_mem_exported hgate hcall).qubits]
    exact List.mem_map_of_mem hq'

/-- The number above a mirrored qubit. -/
theorem toNat_next_mirrored {size : UInt32} {q : Qubit} (h : q < size) :
    (Qubit.next (q.mirrored size)).toNat = size.toNat - q.toNat := by
  have hmirrored := Qubit.toNat_mirrored h
  have hsize := size.toNat_lt
  rw [UInt32.lt_iff_toNat_lt] at h
  unfold Qubit.next
  split
  · rename_i hmax
    rw [hmax] at hmirrored
    have hvalue : (0xffffffff : UInt32).toNat = 4294967295 := by decide
    omega
  · rw [UInt32.toNat_add, hmirrored, UInt32.toNat_one, Nat.mod_eq_of_lt (by omega)]
    omega

/-- **The exported circuit has no qubits beyond the least one that is acted on.** -/
theorem toNat_sizeOf_exported [Scalar α] (h : c.Convertible) :
    (Circuit.sizeOf (c.exported.map GateCall.record)).toNat =
      c.qubitCount.toNat - c.leastUsed := by
  have hqubits : Circuit.sizeOf (c.exported.map GateCall.record) =
      impliedQubitCount (c.exported.flatMap GateCall.qubits) := by
    rw [Circuit.sizeOf, List.flatMap_map]
    rfl
  have hle : ∀ n, impliedQubitCount (c.exported.flatMap GateCall.qubits) ≤ n ↔
      ∀ q ∈ c.usedQubits, c.qubitCount.toNat - q.toNat ≤ n.toNat := by
    intro n
    rw [impliedQubitCount_le_iff]
    constructor
    · intro hall q hq
      have hnext := hall _ ((mem_qubits_exported h).2 ⟨q, hq, rfl⟩)
      rwa [UInt32.le_iff_toNat_le, toNat_next_mirrored (lt_of_mem_usedQubits h hq)] at hnext
    · intro hall q hq
      obtain ⟨q', hq', rfl⟩ := (mem_qubits_exported h).1 hq
      rw [UInt32.le_iff_toNat_le, toNat_next_mirrored (lt_of_mem_usedQubits h hq')]
      exact hall q' hq'
  have hsize : c.qubitCount.toNat < UInt32.size := c.qubitCount.toNat_lt
  have hcast : (UInt32.ofNat (c.qubitCount.toNat - c.leastUsed)).toNat =
      c.qubitCount.toNat - c.leastUsed := UInt32.toNat_ofNat_of_lt' (by omega)
  rw [hqubits]
  apply Nat.le_antisymm
  · rw [← hcast, ← UInt32.le_iff_toNat_le, hle]
    intro q hq
    have hleast := leastUsed_le hq
    omega
  · rcases leastUsed_spec (c := c) with ⟨-, hleast⟩ | ⟨q, hq, hleast, -⟩
    · omega
    · have hnext := (hle _).1 (UInt32.le_refl _) q hq
      omega

end RegisterCircuit

end CircuitExchange
