import Mathlib
import CircuitExchange.Document.Basic
import CircuitExchange.Proofs.Register.Export
import CircuitExchange.Proofs.State.Exported

/-!
What the other formats export, gate by gate, whatever a file made them of. Every call that comes out
has the numbers of qubits and angles of its gate. Circuits of moments and of timed gates are checked
for repeated qubits on the way out, register circuits only when instructions are appended; numbers
are scaled by the first two, and may leave the range of double precision.

* `Document.operands`, `Document.radians`: what decides about a circuit in a format of its own.
* `Document.exists_calls`: the calls of a whole circuit.
* `exported_records_wellFormed`: which exported circuits are well formed.
* `exported_tokens_parse`: which exported circuits are valid.
-/

namespace CircuitExchange

/-! ### Circuits of calls -/

/-- Every token that stands for a record stands for one that passes the check. -/
def Circuit.IsWellFormed (c : Circuit) : Prop :=
  ∀ t ∈ c.tokens, ∀ r, Record.parse t = .ok r → r.checkArity = .ok ()

/-- Every token that stands for a record stands for one with the numbers its gate needs. -/
def Circuit.IsCounted (c : Circuit) : Prop :=
  ∀ t ∈ c.tokens, ∀ r, Record.parse t = .ok r →
    r.qubits.length = r.name.qubitCount ∧ r.params.length = r.name.paramCount

theorem GateCall.Fits.shaped {α : Type} {call : GateCall α} {gate : RegisterGate α}
    {qubits : List Qubit} (h : call.Fits gate qubits) (hlength : qubits.length = gate.qubitCount) :
    call.Shaped :=
  ⟨by rw [h.qubits, h.qubitCount, hlength], h.angleCount⟩

/-- Only gates without angles have room for a repeated qubit. -/
theorem GateCall.Shaped.angles_eq_nil {α : Type} {call : GateCall α} (h : call.Shaped)
    (hrepeated : ¬ call.qubits.Nodup) : call.angles = [] := by
  have hqubits := h.qubitCount
  have hangles := h.angleCount
  cases hname : call.name
  case rx | ry | rz =>
    rw [hname] at hqubits
    obtain ⟨q, hq⟩ := List.length_eq_one_iff.1 hqubits
    exact absurd (hq ▸ List.nodup_singleton q) hrepeated
  all_goals
    rw [hname] at hangles
    exact List.eq_nil_of_length_eq_zero hangles

section Calls

variable {calls : List (GateCall Float)} (h : ∀ call ∈ calls, call.Shaped)
include h

theorem validate_calls_iff : Circuit.validate ⟨calls.map GateCall.token⟩ = .ok () ↔
    ∀ call ∈ calls, ∀ a ∈ call.angles, a.IsFinite := by
  rw [Circuit.validate_eq_ok_iff, List.forall_mem_map]
  refine forall₂_congr fun call hcall => ?_
  constructor
  · rintro ⟨r, hr⟩
    exact ((h call hcall).parse_token_eq_ok_iff.1 hr).1
  · intro hfinite
    exact ⟨_, (h call hcall).parse_token_eq_ok_iff.2 ⟨hfinite, rfl⟩⟩

theorem isCounted_calls : Circuit.IsCounted ⟨calls.map GateCall.token⟩ := by
  refine List.forall_mem_map.2 fun call hcall r hr => ?_
  obtain ⟨-, rfl⟩ := (h call hcall).parse_token_eq_ok_iff.1 hr
  exact ⟨(h call hcall).qubitCount, (List.length_map _).trans (h call hcall).angleCount⟩

theorem isWellFormed_calls_iff : Circuit.IsWellFormed ⟨calls.map GateCall.token⟩ ↔
    ∀ call ∈ calls, call.qubits.Nodup := by
  rw [Circuit.IsWellFormed, List.forall_mem_map]
  refine forall₂_congr fun call hcall => ?_
  have hparse := fun {r} => (h call hcall).parse_token_eq_ok_iff (r := r)
  constructor
  · intro hall
    by_contra hrepeated
    have hfinite : ∀ a ∈ call.angles, a.IsFinite := by
      rw [(h call hcall).angles_eq_nil hrepeated]
      exact fun a ha => absurd ha List.not_mem_nil
    have hcheck := hall _ (hparse.2 ⟨hfinite, rfl⟩)
    rw [Record.checkArity_eq_ok_iff, (h call hcall).wellFormed_record_iff] at hcheck
    exact hrepeated hcheck
  · intro hnodup r hr
    obtain ⟨-, rfl⟩ := hparse.1 hr
    rwa [Record.checkArity_eq_ok_iff, (h call hcall).wellFormed_record_iff]

end Calls

/-! ### What is exported -/

/-- The half-turns of a rotation. -/
def MomentGate.exponent? {α : Type} : MomentGate α → Option α
  | .rx exponent | .ry exponent | .rz exponent => some exponent
  | _ => none

/-- The angle of a rotation in radians, as it is exported. -/
def MomentGate.radians (gate : MomentGate Float) : List Float :=
  (gate.exponent?.map (· * Scalar.pi)).toList

/-- The angle of a rotation in radians, as it is exported. -/
def TimedGate.radians (gate : TimedGate Float) : List Float :=
  (gate.theta?.map (· * Scalar.two)).toList

namespace Document

/-- The qubits of each gate of a circuit in a format other than the canonical one. -/
def operands : Document → List (List Qubit)
  | canonical _ => []
  | moment c => c.operations.map (·.qubits)
  | register c => c.instructions.map (·.qubits)
  | timed c => c.entries.map (·.qubits)

/-- The angles of the gates in radians. Those of moments and of timed gates are products. -/
def radians : Document → List Float
  | canonical _ => []
  | moment c => c.operations.flatMap (·.gate.radians)
  | register c => c.instructions.flatMap (·.gate.angles)
  | timed c => c.entries.flatMap (·.gate.radians)

/-- Calls that are exported for a circuit. Only a register circuit may still repeat a qubit. -/
structure ExportedAs (d : Document) (calls : List (GateCall Float)) : Prop where
  shaped : ∀ call ∈ calls, call.Shaped
  nodup : (∀ call ∈ calls, call.qubits.Nodup) ↔ ∀ qubits ∈ d.operands, qubits.Nodup
  checked : d.format ≠ .register → ∀ qubits ∈ d.operands, qubits.Nodup
  finite : (∀ call ∈ calls, ∀ a ∈ call.angles, a.IsFinite) ↔ ∀ x ∈ d.radians, x.isFinite

end Document

/-! ### Circuits of moments -/

section Moments

theorem isFinite_angle_iff {exponent : Float} :
    (MomentOperation.angle exponent).IsFinite ↔ (exponent * Scalar.pi : Float).isFinite := by
  rw [← Decimal.eval_angle_eq_product]
  unfold MomentOperation.angle
  split
  · exact iff_of_true trivial isFinite_pi
  · split
    · exact iff_of_true trivial isFinite_twoPi
    · exact Iff.rfl

/-- A call that an operation is exported as, none for a measurement. -/
structure MomentOperation.ExportedAs (op : MomentOperation Float)
    (call? : Option (GateCall Float)) : Prop where
  nodup : op.qubits.Nodup
  shaped : ∀ call ∈ call?, call.Shaped ∧ call.qubits = op.qubits
  finite : (∀ call ∈ call?, ∀ a ∈ call.angles, a.IsFinite) ↔ ∀ x ∈ op.gate.radians, x.isFinite

theorem MomentOperation.exportedAs_of_call? {op : MomentOperation Float}
    {call? : Option (GateCall Float)} (h : op.call? = .ok call?) : op.ExportedAs call? := by
  obtain ⟨_, hvalid, h⟩ := bind_eq_ok h
  obtain ⟨gate?, hgate, h⟩ := bind_eq_ok h
  obtain rfl := Except.ok.inj h
  obtain ⟨hcount, hnodup⟩ := validate_eq_ok_iff.1 hvalid
  obtain ⟨gate, qubits⟩ := op
  cases gate
  case iswap => cases hgate
  case measure =>
    obtain rfl := Except.ok.inj hgate
    exact ⟨hnodup, nofun, iff_of_true nofun nofun⟩
  case rx | ry | rz =>
    obtain rfl := Except.ok.inj hgate
    refine ⟨hnodup, ?_, ?_⟩
    · rintro _ ⟨⟩
      exact ⟨⟨hcount _ rfl, rfl⟩, rfl⟩
    · simp [MomentGate.radians, MomentGate.exponent?, isFinite_angle_iff]
  all_goals
    obtain rfl := Except.ok.inj hgate
    refine ⟨hnodup, ?_, iff_of_true ?_ nofun⟩
    · rintro _ ⟨⟩
      exact ⟨⟨hcount _ rfl, rfl⟩, rfl⟩
    · rintro _ ⟨⟩
      exact fun a ha => absurd ha List.not_mem_nil

variable {m : MomentCircuit Float} {c : Circuit}

/-- A circuit of moments is exported as the calls of its operations. -/
theorem MomentCircuit.exists_calls (h : m.toCircuit = .ok c) :
    ∃ calls, c = ⟨calls.map GateCall.token⟩ ∧ (Document.moment m).ExportedAs calls := by
  obtain ⟨calls, hcalls, h⟩ := bind_eq_ok h
  obtain rfl := Except.ok.inj h
  obtain ⟨results, hresults, h⟩ := bind_eq_ok (mapError_eq_ok hcalls)
  obtain rfl := Except.ok.inj h
  have hexported := (mapM_eq_ok_iff.1 hresults).imp fun _ _ => MomentOperation.exportedAs_of_call?
  have hmem : ∀ {P : GateCall Float → Prop}, (∀ call ∈ results.filterMap id, P call) ↔
      ∀ call? ∈ results, ∀ call ∈ call?, P call := by
    intro P
    simp only [List.mem_filterMap, id_eq, Option.mem_def]
    exact ⟨fun h call? hcall? call hcall => h call ⟨call?, hcall?, hcall⟩,
      fun h call ⟨call?, hcall?, hcall⟩ => h call? hcall? call hcall⟩
  have hoperands : ∀ qubits ∈ (Document.moment m).operands, qubits.Nodup := by
    refine List.forall_mem_map.2 fun op hop => ?_
    obtain ⟨call?, -, hop⟩ := exists_mem_of_forall₂ hexported.flip hop
    exact hop.nodup
  have hcalls : ∀ call ∈ results.filterMap id, call.Shaped ∧ call.qubits.Nodup := by
    refine hmem.2 fun call? hcall? call hcall => ?_
    obtain ⟨op, -, hop⟩ := exists_mem_of_forall₂ hexported hcall?
    obtain ⟨hshaped, hqubits⟩ := hop.shaped call hcall
    exact ⟨hshaped, hqubits ▸ hop.nodup⟩
  refine ⟨_, rfl, fun call hcall => (hcalls call hcall).1,
    iff_of_true (fun call hcall => (hcalls call hcall).2) hoperands, fun _ => hoperands, ?_⟩
  rw [hmem, Document.radians, List.forall_mem_flatMap]
  exact forall_mem_iff_of_forall₂ hexported.flip fun hop => hop.finite

end Moments

/-! ### Circuits of timed gates -/

section Timed

/-- An exported gate that is no rotation has no parameters. -/
theorem TimedGate.theta?_eq_none {α : Type} {g : TimedGate α} (h : g.unexpectedKey? = none)
    (hplain : g.name.isRotation = false) : g.theta? = none := by
  have hkeys := List.find?_eq_none.1 h
  rw [hplain] at hkeys
  cases hentries : g.parameters.entries with
  | nil => rw [theta?, Parameters.lookup?, hentries, List.lookup_nil]
  | cons p rest =>
    rw [hentries] at hkeys
    exact absurd rfl (hkeys p.1 (List.mem_cons_self ..))

theorem TimedEntry.unexpectedKey?_of_record {e : TimedEntry Float} {r : Record Float}
    (h : e.record = .ok r) : e.gate.unexpectedKey? = none := by
  rw [record] at h
  split at h
  · cases h
  · split at h
    · cases h
    · assumption

/-- The angles of an exported gate are the double of its `theta`. -/
theorem TimedEntry.params_of_record {e : TimedEntry Float} {r : Record Float}
    (h : e.record = .ok r) : r.params = e.gate.radians := by
  have hparams := (exports_of_record h).params
  rw [TimedGate.radians]
  cases hrotation : e.gate.name.isRotation with
  | true =>
    obtain ⟨theta, htheta, heq⟩ := TimedGate.exists_theta hparams hrotation
    rw [heq, htheta]
    rfl
  | false =>
    rw [TimedGate.angles, hrotation] at hparams
    rw [TimedGate.theta?_eq_none (unexpectedKey?_of_record h) hrotation]
    exact (Except.ok.inj hparams).symm

variable {t : TimedCircuit Float} {c : Circuit}

/-- A circuit of timed gates is exported as the calls of its records. -/
theorem TimedCircuit.exists_calls (h : t.toCircuit = .ok c) :
    ∃ calls, c = ⟨calls.map GateCall.token⟩ ∧ (Document.timed t).ExportedAs calls := by
  obtain ⟨rs, hrs, h⟩ := bind_eq_ok h
  obtain rfl := Except.ok.inj h
  have hrecords := mapM_eq_ok_iff.1 hrs
  have hoperands : ∀ qubits ∈ (Document.timed t).operands, qubits.Nodup := by
    refine List.forall_mem_map.2 fun e he => ?_
    obtain ⟨r, -, hr⟩ := exists_mem_of_forall₂ hrecords.flip he
    have hexports := TimedEntry.exports_of_record hr
    exact hexports.qubits ▸ hexports.wellFormed.nodup
  have hwellFormed : ∀ r ∈ rs, r.WellFormed := fun r hr => by
    obtain ⟨e, -, he⟩ := exists_mem_of_forall₂ hrecords hr
    exact (TimedEntry.exports_of_record he).wellFormed
  refine ⟨rs.map Record.call, Circuit.ofRecords_eq rs, List.forall_mem_map.2 fun r hr => ?_,
    iff_of_true (List.forall_mem_map.2 fun r hr => (hwellFormed r hr).nodup) hoperands,
    fun _ => hoperands, ?_⟩
  · exact .of_wellFormed_record (r.record_call.symm ▸ hwellFormed r hr)
  · rw [List.forall_mem_map, Document.radians, List.forall_mem_flatMap]
    refine forall_mem_iff_of_forall₂ hrecords.flip fun {r e} he => ?_
    rw [Record.call, TimedEntry.params_of_record he]
    simp [Angle.IsFinite]

end Timed

/-! ### Register circuits -/

section Registers

theorem RegisterGate.exportable_of_gateCalls {α : Type} {gate : RegisterGate α}
    {qubits : List Qubit} {calls : List (GateCall α)}
    (h : RegisterInstruction.gateCalls gate qubits = .ok calls) : gate.Exportable := by
  constructor
  all_goals
    rintro rfl
    cases h

/-- What an instruction is exported as, if it is. -/
theorem RegisterInstruction.of_calls {α : Type} {inst : RegisterInstruction α} {size : UInt32}
    {calls : List (GateCall α)} (h : inst.calls size = .ok calls) :
    inst.qubits.length = inst.gate.qubitCount ∧ (∀ q ∈ inst.qubits, q < size) ∧
      inst.gate.Exportable ∧ calls = inst.exported size := by
  rw [RegisterInstruction.calls] at h
  split at h
  · cases h
  · rename_i hlength
    obtain ⟨qubits, hqubits, h⟩ := bind_eq_ok h
    obtain ⟨hlt, rfl⟩ := mapM_reversed_eq_ok_iff.1 (mapError_eq_ok hqubits)
    have hcalls := mapError_eq_ok h
    have hgate := RegisterGate.exportable_of_gateCalls hcalls
    exact ⟨not_not.1 hlength, hlt, hgate,
      Except.ok.inj (hcalls.symm.trans (gateCalls_eq_exported hgate))⟩

/-- The calls of an instruction repeat a qubit if the instruction does. A measurement has no calls,
but a single qubit only. -/
theorem RegisterInstruction.nodup_exported_iff {inst : RegisterInstruction Float}
    {size : UInt32} (hlength : inst.qubits.length = inst.gate.qubitCount)
    (hlt : ∀ q ∈ inst.qubits, q < size) (hgate : inst.gate.Exportable) :
    (∀ call ∈ inst.exported size, call.qubits.Nodup) ↔ inst.qubits.Nodup := by
  constructor
  · intro h
    cases hcalls : inst.exported size with
    | nil =>
      have hmeasurement := (exported_eq_nil_iff hgate).1 hcalls
      have hcount : inst.gate.qubitCount = 1 := by
        cases hgate : inst.gate <;> rw [hgate] at hmeasurement <;> first | rfl | cases hmeasurement
      obtain ⟨q, hq⟩ := List.length_eq_one_iff.1 (hlength.trans hcount)
      exact hq ▸ List.nodup_singleton q
    | cons call calls =>
      have hcall : call ∈ inst.exported size := hcalls ▸ List.mem_cons_self ..
      have hnodup := h call hcall
      rw [(fits_of_mem_exported hgate hcall).qubits] at hnodup
      exact hnodup.of_map
  · intro hnodup call hcall
    exact (wellFormed_record_of_mem_exported ⟨hlength, hnodup, hlt⟩ hgate hcall).nodup

variable {r : RegisterCircuit Float} {c : Circuit}

/-- A register circuit is exported as the calls of its instructions. -/
theorem RegisterCircuit.exists_calls (h : r.toCircuit = .ok c) :
    ∃ calls, c = ⟨calls.map GateCall.token⟩ ∧ (Document.register r).ExportedAs calls := by
  obtain ⟨calls, hcalls, h⟩ := bind_eq_ok h
  obtain rfl := Except.ok.inj h
  obtain ⟨results, hresults, h⟩ := bind_eq_ok hcalls
  obtain rfl := Except.ok.inj h
  have hexported := (mapM_eq_ok_iff.1 hresults).imp fun _ _ => RegisterInstruction.of_calls
  have hmem : ∀ {P : GateCall Float → Prop}, (∀ call ∈ results.flatten, P call) ↔
      ∀ calls ∈ results, ∀ call ∈ calls, P call := List.forall_mem_flatten
  refine ⟨_, rfl, hmem.2 fun calls hcalls call hcall => ?_, ?_, fun hformat => absurd rfl hformat,
    ?_⟩
  · obtain ⟨inst, -, hlength, -, hgate, rfl⟩ := exists_mem_of_forall₂ hexported hcalls
    refine (fits_of_mem_exported hgate hcall).shaped ?_
    rw [List.length_map, hlength]
  · rw [hmem, Document.operands, List.forall_mem_map]
    refine forall_mem_iff_of_forall₂ hexported.flip ?_
    rintro _ inst ⟨hlength, hlt, hgate, rfl⟩
    exact RegisterInstruction.nodup_exported_iff hlength hlt hgate
  · rw [hmem, Document.radians, List.forall_mem_flatMap]
    refine forall_mem_iff_of_forall₂ hexported.flip ?_
    rintro _ inst ⟨-, -, -, rfl⟩
    exact isFinite_exported_iff

end Registers

/-! ### Exported tokens -/

section Documents

variable {d : Document} {c : Circuit}

/-- Any circuit in a format of its own is exported as calls. -/
theorem Document.exists_calls (hformat : d.format ≠ .canonical) (h : d.toCircuit = .ok c) :
    ∃ calls, c = ⟨calls.map GateCall.token⟩ ∧ d.ExportedAs calls := by
  cases d with
  | canonical c => exact absurd rfl hformat
  | moment m => exact MomentCircuit.exists_calls h
  | register r => exact RegisterCircuit.exists_calls h
  | timed t => exact TimedCircuit.exists_calls h

/-- **The records of exported tokens** have the numbers of qubits and angles their gates need. They
are well formed if no gate repeats a qubit, and circuits of moments and of timed gates that repeat
one are not exported. A register circuit that does, which appending refuses, is exported. -/
theorem exported_records_wellFormed (hformat : d.format ≠ .canonical) (h : d.toCircuit = .ok c) :
    c.IsCounted ∧ (c.IsWellFormed ↔ ∀ qubits ∈ d.operands, qubits.Nodup) ∧
      (d.format ≠ .register → ∀ qubits ∈ d.operands, qubits.Nodup) := by
  obtain ⟨calls, rfl, hcalls⟩ := Document.exists_calls hformat h
  exact ⟨isCounted_calls hcalls.shaped, (isWellFormed_calls_iff hcalls.shaped).trans hcalls.nodup,
    hcalls.checked⟩

theorem exported_records_wellFormed_distinct :
    (Document.toCircuit (.moment ⟨[[⟨.cnot, [0, 1]⟩]]⟩) = .ok ⟨["CX(0, 1)"]⟩ ∧
      Circuit.IsWellFormed ⟨["CX(0, 1)"]⟩) ∧
    Document.toCircuit (.register ⟨2, 0, [⟨.swap, [0, 1]⟩]⟩) = .ok ⟨["SWAP(1, 0)"]⟩ ∧
      Circuit.IsWellFormed ⟨["SWAP(1, 0)"]⟩ := by
  have hm : Document.toCircuit (.moment ⟨[[⟨.cnot, [0, 1]⟩]]⟩) = .ok ⟨["CX(0, 1)"]⟩ := by
    decide +kernel
  have hr : Document.toCircuit (.register ⟨2, 0, [⟨.swap, [0, 1]⟩]⟩) = .ok ⟨["SWAP(1, 0)"]⟩ := by
    decide +kernel
  obtain ⟨-, hmoment, hnodup⟩ := exported_records_wellFormed (by decide) hm
  exact ⟨⟨hm, hmoment.2 (hnodup (by decide))⟩, hr,
    (exported_records_wellFormed (by decide) hr).2.1.2 (by decide)⟩

end Documents

/-- A register circuit from a file may repeat a qubit, and is exported all the same. -/
theorem exported_register_repeats_qubit : ∃ (r : RegisterCircuit Float) (c : Circuit),
    Document.read .register
      "\x7b\"num_qubits\":2,\"instructions\":[\x7b\"name\":\"cx\",\"qubits\":[0,0]\x7d]\x7d" =
        .ok (.register r) ∧
      (∃ inst ∈ r.instructions, ¬ inst.qubits.Nodup) ∧ r.toCircuit = .ok c ∧
        ¬ c.IsWellFormed := by
  refine ⟨⟨2, 0, [⟨.cx, [0, 0]⟩]⟩, ⟨["CX(1, 1)"]⟩, ?_, by decide, by decide +kernel, fun h => ?_⟩
  · have hparse : Json.parse?
        "\x7b\"num_qubits\":2,\"instructions\":[\x7b\"name\":\"cx\",\"qubits\":[0,0]\x7d]\x7d" >>=
          RegisterCircuit.ofJson? = some ⟨2, 0, [⟨.cx, [0, 0]⟩]⟩ := by decide +kernel
    rw [Document.read, hparse]
    rfl
  · have hparse : Record.parse "CX(1, 1)" = .ok ⟨.cx, [], [1, 1]⟩ := by decide +kernel
    exact absurd (h _ (List.mem_singleton_self _) _ hparse) (by decide)

/-- **When all exported tokens parse.** That is so exactly if all angles in radians are in the range
of double precision: half-turns times π in a circuit of moments, the double of each `theta` in one
of timed gates, the angles themselves in a register circuit. A product that leaves the range is
exported as a token that does not parse. -/
theorem exported_tokens_parse {d : Document} {c : Circuit} (hformat : d.format ≠ .canonical)
    (h : d.toCircuit = .ok c) : c.validate = .ok () ↔ ∀ x ∈ d.radians, x.isFinite := by
  obtain ⟨calls, rfl, hcalls⟩ := Document.exists_calls hformat h
  exact (validate_calls_iff hcalls.shaped).trans hcalls.finite

theorem exported_tokens_parse_rotation :
    (Document.toCircuit (.timed ⟨[⟨0, [0], .rotation .rx 1⟩]⟩) = .ok ⟨["RX(2)(0)"]⟩ ∧
      Circuit.validate ⟨["RX(2)(0)"]⟩ = .ok ()) ∧
    Document.toCircuit (.register ⟨1, 0, [⟨.u2 1 2, [0]⟩]⟩) =
        .ok ⟨["RZ(2 - PI/2)(0)", "RX(PI/2)(0)", "RZ(1 + PI/2)(0)"]⟩ ∧
      Circuit.validate ⟨["RZ(2 - PI/2)(0)", "RX(PI/2)(0)", "RZ(1 + PI/2)(0)"]⟩ = .ok () := by
  have ht : Document.toCircuit (.timed ⟨[⟨0, [0], .rotation .rx 1⟩]⟩) = .ok ⟨["RX(2)(0)"]⟩ := by
    decide +kernel
  have hr : Document.toCircuit (.register ⟨1, 0, [⟨.u2 1 2, [0]⟩]⟩) =
      .ok ⟨["RZ(2 - PI/2)(0)", "RX(PI/2)(0)", "RZ(1 + PI/2)(0)"]⟩ := by decide +kernel
  exact ⟨⟨ht, (exported_tokens_parse (by decide) ht).2 (by decide +kernel)⟩, hr,
    (exported_tokens_parse (by decide) hr).2 (by decide +kernel)⟩

/-- Half-turns from a file may leave the range of double precision when they are exported. -/
theorem exported_half_turns_overflow : ∃ (m : MomentCircuit Float) (c : Circuit),
    Document.read .moment ("\x7b\"moments\":[\x7b\"operations\":[\x7b\"gate\":" ++
      "\x7b\"type\":\"Rx\",\"exponent\":1e308\x7d,\"qubits\":[0]\x7d]\x7d]\x7d") = .ok (.moment m) ∧
      (∀ op ∈ m.operations, ∀ x ∈ op.gate.exponent?, x.isFinite) ∧ m.toCircuit = .ok c ∧
        c.tokens = ["RX(inf)(0)"] ∧ c.validate ≠ .ok () := by
  refine ⟨⟨[[⟨.rx (Decimal.Numeral.toFloat false ⟨1, 308⟩), [0]⟩]]⟩, ⟨["RX(inf)(0)"]⟩, ?_, ?_⟩
  · have hparse : Json.parse? ("\x7b\"moments\":[\x7b\"operations\":[\x7b\"gate\":" ++
        "\x7b\"type\":\"Rx\",\"exponent\":1e308\x7d,\"qubits\":[0]\x7d]\x7d]\x7d") >>=
          MomentCircuit.ofJson? =
        some ⟨[[⟨.rx (Decimal.Numeral.toFloat false ⟨1, 308⟩), [0]⟩]]⟩ := by decide +kernel
    rw [Document.read, hparse]
    rfl
  · decide +kernel

end CircuitExchange
