import Mathlib
import CircuitExchange.Moment.Conversion
import CircuitExchange.Timed.Conversion
import CircuitExchange.Proofs.Order.Scheduling
import CircuitExchange.Proofs.Token.Heading

/-!
Conversion into the scheduled circuits keeps the order of gates that share a qubit. What a record is
stored as is spelled out gate by gate, apart from the conversion.

* `MomentOperation.Stores`, `TimedEntry.Stores`: what a record is stored as.
* `MomentCircuit.reordered_ofRecords`, `TimedCircuit.reordered_ofRecords`: the native circuits store
  the records of the canonical one, reordered.
* `scheduling_keeps_order`: the order there and back.
-/

namespace CircuitExchange

/-! ### What records are stored as -/

section Stores

variable {α : Type} [Scalar α]

/-- The gate that a name with angles is stored as in a circuit of moments: rotations as half-turns,
all other gates under their own names. -/
inductive MomentGate.Stores : GateName → List α → MomentGate α → Prop
  | i : Stores .i [] .i
  | h : Stores .h [] .h
  | x : Stores .x [] .x
  | y : Stores .y [] .y
  | z : Stores .z [] .z
  | s : Stores .s [] .s
  | t : Stores .t [] .t
  | cx : Stores .cx [] .cnot
  | cz : Stores .cz [] .cz
  | swap : Stores .swap [] .swap
  | ccx : Stores .ccx [] .toffoli
  | rx (theta : α) : Stores .rx [theta] (.rx (theta / Scalar.pi))
  | ry (theta : α) : Stores .ry [theta] (.ry (theta / Scalar.pi))
  | rz (theta : α) : Stores .rz [theta] (.rz (theta / Scalar.pi))

/-- The gate that a name with angles is stored as in a circuit of timed gates: rotations with half
their angle. -/
inductive TimedGate.Stores : GateName → List α → TimedGate α → Prop
  | i : Stores .i [] (.plain .i)
  | h : Stores .h [] (.plain .h)
  | x : Stores .x [] (.plain .x)
  | y : Stores .y [] (.plain .y)
  | z : Stores .z [] (.plain .z)
  | s : Stores .s [] (.plain .s)
  | t : Stores .t [] (.plain .t)
  | cx : Stores .cx [] (.plain .cx)
  | cz : Stores .cz [] (.plain .cz)
  | swap : Stores .swap [] (.plain .swap)
  | ccx : Stores .ccx [] (.plain .ccx)
  | rx (theta : α) : Stores .rx [theta] (.rotation .rx (theta / Scalar.two))
  | ry (theta : α) : Stores .ry [theta] (.rotation .ry (theta / Scalar.two))
  | rz (theta : α) : Stores .rz [theta] (.rotation .rz (theta / Scalar.two))

/-- The operation holds the gate of the record, on the same qubits. -/
structure MomentOperation.Stores (r : Record α) (op : MomentOperation α) : Prop where
  gate : MomentGate.Stores r.name r.params op.gate
  qubits : op.qubits = r.qubits

/-- The entry holds the gate of the record, on the same qubits. -/
structure TimedEntry.Stores (r : Record α) (e : TimedEntry α) : Prop where
  gate : TimedGate.Stores r.name r.params e.gate
  qubits : e.qubits = r.qubits

end Stores

section WellFormed

variable {α : Type} {r : Record α}

theorem Record.angle_eq_ok {theta : α} (h : r.angle = .ok theta) : r.params = [theta] := by
  unfold Record.angle at h
  split at h
  · rw [← Except.ok.inj h]
    assumption
  · cases h

/-- The gates without angles have none in a well formed record. -/
theorem Record.WellFormed.params_eq_nil (h : r.WellFormed) (hplain : r.name.isRotation = false) :
    r.params = [] := by
  have hcount := h.paramCount
  rw [GateName.paramCount, hplain, if_neg Bool.false_ne_true] at hcount
  exact List.eq_nil_of_length_eq_zero hcount

/-- The rotations have one angle in a well formed record. -/
theorem Record.WellFormed.exists_params_eq (h : r.WellFormed)
    (hrotation : r.name.isRotation = true) : ∃ theta, r.params = [theta] := by
  have hcount := h.paramCount
  rw [GateName.paramCount, if_pos hrotation] at hcount
  exact List.length_eq_one_iff.1 hcount

theorem Record.WellFormed.qubits_ne (h : r.WellFormed) : r.qubits ≠ [] := by
  intro hnil
  have hcount := h.qubitCount
  rw [hnil] at hcount
  cases hname : r.name <;> rw [hname] at hcount <;> cases hcount

end WellFormed

/-- The call has the name and the qubits of a well formed record, and as many angles. -/
structure GateCall.Exports {α : Type} (r : Record α) (c : GateCall α) : Prop where
  wellFormed : r.WellFormed
  heading : c.heading = r.heading
  angles : c.angles.length = r.params.length

/-- Such a call stands for a well formed record as well. -/
theorem GateCall.Exports.wellFormed_record {α : Type} [Scalar α] {r : Record α} {c : GateCall α}
    (h : c.Exports r) : c.record.WellFormed := by
  obtain ⟨hname, hqubits⟩ := Prod.mk.inj h.heading
  refine ⟨?_, ?_, ?_⟩
  · change c.qubits.length = c.name.qubitCount
    rw [hqubits, hname, h.wellFormed.qubitCount]
  · rw [record, List.length_map, h.angles, h.wellFormed.paramCount, hname]
  · change c.qubits.Nodup
    rw [hqubits]
    exact h.wellFormed.nodup

/-- A call that stands for a well formed record is read as no other record. -/
theorem GateCall.record_of_parse {c : GateCall Float} {r : Record Float} (h : c.record.WellFormed)
    (hparse : Record.parse c.token = .ok r) : c.record = r :=
  ((Shaped.of_wellFormed_record h).parse_token_eq_ok_iff.1 hparse).2

/-- Tokens of calls that stand for well formed records are read as no other records. -/
theorem Circuit.gates_of_calls {calls : List (GateCall Float)} {rs : List (Record Float)}
    (h : ∀ c ∈ calls, c.record.WellFormed)
    (hparse : Circuit.gates ⟨calls.map GateCall.token⟩ = .ok rs) :
    calls.map GateCall.record = rs := by
  have hparsed := List.forall₂_map_left_iff.1 (Circuit.gates_eq_ok_iff.1 hparse)
  have hboth := (List.forall₂_and_left ..).2 ⟨h, hparsed⟩
  have hrecords : List.Forall₂ (fun c r => c.record = id r) calls rs :=
    hboth.imp fun _ _ hc => GateCall.record_of_parse hc.1 hc.2
  rw [map_eq_map_of_forall₂ hrecords, List.map_id]

/-- Exported calls are read as records of the same names and qubits. -/
theorem headings_of_gates {rs rs' : List (Record Float)} {call : Record Float → GateCall Float}
    (hcall : ∀ r ∈ rs, (call r).Exports r)
    (hparse : Circuit.gates ⟨(rs.map call).map GateCall.token⟩ = .ok rs') :
    rs'.map Record.heading = rs.map Record.heading := by
  have hwellFormed : ∀ c ∈ rs.map call, c.record.WellFormed := by
    intro c hc
    obtain ⟨r, hr, rfl⟩ := List.mem_map.1 hc
    exact (hcall r hr).wellFormed_record
  rw [← Circuit.gates_of_calls hwellFormed hparse, List.map_map, List.map_map]
  exact List.map_congr_left fun r hr => (hcall r hr).heading

/-- Reordered records have reordered names and qubits. -/
theorem reordered_headings {rs rs' : List (Record Float)}
    (h : Reordered (Apart Record.qubits) rs rs') :
    Reordered (Apart Prod.snd) (rs.map Record.heading) (rs'.map Record.heading) :=
  h.map fun _ _ hapart => hapart

/-! ### Circuits of moments -/

section Moments

variable {α : Type} [Scalar α]

theorem MomentGate.stores_of_ofRecord {r : Record α} (hr : r.WellFormed) {g : MomentGate α}
    (h : MomentGate.ofRecord r = .ok g) : MomentGate.Stores r.name r.params g := by
  obtain ⟨name, params, qubits⟩ := r
  cases name
  case rx | ry | rz =>
    obtain ⟨theta, htheta, rfl⟩ := map_eq_ok h
    obtain rfl : params = [theta] := Record.angle_eq_ok htheta
    constructor
  all_goals
    obtain rfl : params = [] := hr.params_eq_nil rfl
    obtain rfl := Except.ok.inj h
    constructor

theorem MomentGate.ofRecord_of_stores {r : Record α} {g : MomentGate α}
    (hstores : MomentGate.Stores r.name r.params g) : MomentGate.ofRecord r = .ok g := by
  obtain ⟨name, params, qubits⟩ := r
  cases hstores <;> rfl

/-- The call with every angle of a record as a formula of its half-turns. -/
def Record.halfTurnCall (r : Record α) : GateCall α :=
  ⟨r.name, r.params.map fun theta => MomentOperation.angle (theta / Scalar.pi), r.qubits⟩

theorem Record.WellFormed.exports_halfTurnCall {r : Record α} (h : r.WellFormed) :
    r.halfTurnCall.Exports r := ⟨h, rfl, List.length_map _⟩

/-- What is stored of a record is exported with its angles turned back. -/
theorem MomentOperation.call?_eq {r : Record α} {op : MomentOperation α}
    (h : MomentOperation.Stores r op) (hvalid : op.validate = .ok ()) :
    op.call? = .ok (some r.halfTurnCall) := by
  obtain ⟨name, params, qubits⟩ := r
  obtain ⟨gate, qubits'⟩ := op
  obtain ⟨hgate, rfl⟩ := h
  rw [MomentOperation.call?, hvalid]
  cases hgate <;> rfl

namespace MomentCircuit

/-- **Appending a record inserts what is stored of it before operations apart from it.** -/
theorem inserted_appendRecord {m m' : MomentCircuit α} {r : Record α}
    (h : m.appendRecord r = .ok m') :
    ∃ op, (r.WellFormed ∧ MomentOperation.Stores r op ∧ op.validate = .ok ()) ∧
      Inserted (Apart MomentOperation.qubits) op m.operations m'.operations := by
  rw [appendRecord] at h
  obtain ⟨_, harity, h⟩ := bind_eq_ok h
  obtain ⟨gate, hgate, h⟩ := bind_eq_ok h
  have hr := r.checkArity_eq_ok_iff.1 (mapError_eq_ok harity)
  obtain ⟨hvalid, hinserted⟩ := inserted_append (mapError_eq_ok h)
  have hstores := MomentGate.stores_of_ofRecord hr (mapError_eq_ok hgate)
  exact ⟨⟨gate, r.qubits⟩, ⟨hr, ⟨hstores, rfl⟩, hvalid⟩, hinserted⟩

/-- **The operations store the records, reordered.** -/
theorem reordered_ofRecords {rs : List (Record α)} {m : MomentCircuit α}
    (h : ofRecords rs = .ok m) :
    ∃ rs', Reordered (Apart Record.qubits) rs rs' ∧
      List.Forall₂ (fun r op => r.WellFormed ∧ MomentOperation.Stores r op ∧ op.validate = .ok ())
        rs' m.operations := by
  obtain ⟨-, ops, hops, hreordered⟩ := reordered_of_foldlM operations (fun _ => True)
    (fun _ _ _ _ hr => ⟨trivial, inserted_appendRecord hr⟩) trivial h
  refine hreordered.exists_forall₂ ?_ hops
  intro r r' op op' hr hr' hapart
  rw [Apart, hr.2.1.qubits, hr'.2.1.qubits] at hapart
  exact hapart

/-- Operations that are exported as calls are exported as all of them. -/
theorem calls_of_forall₂ {m : MomentCircuit α} {calls : List (GateCall α)}
    (h : List.Forall₂ (fun op call => op.call? = .ok (some call)) m.operations calls) :
    m.calls = .ok calls := by
  have hcalls : m.operations.mapM MomentOperation.call? = .ok (calls.map some) := by
    rw [mapM_eq_ok_iff, List.forall₂_map_right_iff]
    exact h
  rw [MomentCircuit.calls, hcalls, ok_bind, List.filterMap_map]
  exact congrArg Except.ok List.filterMap_some

/-- The operations that store records are exported with their angles turned back. -/
theorem calls_eq {rs : List (Record α)} {m : MomentCircuit α}
    (h : List.Forall₂
      (fun r op => r.WellFormed ∧ MomentOperation.Stores r op ∧ op.validate = .ok ())
      rs m.operations) :
    m.calls = .ok (rs.map Record.halfTurnCall) := by
  refine calls_of_forall₂ (List.forall₂_map_right_iff.2 ?_)
  exact (h.imp fun _ _ hop => MomentOperation.call?_eq hop.2.1 hop.2.2).flip

end MomentCircuit

end Moments

/-! ### Circuits of timed gates -/

section Timed

variable {α : Type} [Scalar α]

theorem TimedGate.stores_of_ofRecord {r : Record α} (hr : r.WellFormed) {g : TimedGate α}
    (h : TimedGate.ofRecord r = .ok g) : TimedGate.Stores r.name r.params g := by
  obtain ⟨name, params, qubits⟩ := r
  cases name
  case rx | ry | rz =>
    obtain ⟨theta, htheta, rfl⟩ := map_eq_ok h
    obtain rfl : params = [theta] := Record.angle_eq_ok htheta
    constructor
  all_goals
    obtain rfl : params = [] := hr.params_eq_nil rfl
    obtain rfl := Except.ok.inj h
    constructor

theorem TimedGate.ofRecord_of_stores {r : Record α} {g : TimedGate α}
    (hstores : TimedGate.Stores r.name r.params g) : TimedGate.ofRecord r = .ok g := by
  obtain ⟨name, params, qubits⟩ := r
  cases hstores <;> rfl

/-- The record with every angle halved and doubled again. -/
def Record.redoubled (r : Record α) : Record α :=
  { r with params := r.params.map fun theta => theta / Scalar.two * Scalar.two }

theorem Record.WellFormed.redoubled {r : Record α} (h : r.WellFormed) : r.redoubled.WellFormed :=
  ⟨h.qubitCount, (List.length_map _).trans h.paramCount, h.nodup⟩

theorem Record.WellFormed.exports_redoubled {r : Record α} (h : r.WellFormed) :
    r.redoubled.call.Exports r :=
  ⟨h, rfl, (List.length_map _).trans (List.length_map _)⟩

/-- What is stored of a record is exported with its angles doubled. -/
theorem TimedEntry.record_eq {r : Record α} {e : TimedEntry α} (hr : r.WellFormed)
    (h : TimedEntry.Stores r e) : e.record = .ok r.redoubled := by
  have hchecked : e.record =
      (r.redoubled.checkArity.mapError ConversionError.record >>= fun _ => .ok r.redoubled) := by
    obtain ⟨name, params, qubits⟩ := r
    obtain ⟨time, qubits', gate⟩ := e
    obtain ⟨hgate, rfl⟩ := h
    cases hgate <;> rfl
  rw [hchecked, r.redoubled.checkArity_eq_ok_iff.2 hr.redoubled]
  rfl

namespace TimedCircuit

/-- **Adding a record inserts what is stored of it before entries apart from it.** -/
theorem inserted_addRecord {t t' : TimedCircuit α} {r : Record α} (ht : t.Scheduled)
    (h : t.addRecord r = .ok t') :
    t'.Scheduled ∧ ∃ e, (r.WellFormed ∧ TimedEntry.Stores r e) ∧
      Inserted (Apart TimedEntry.qubits) e t.entries t'.entries := by
  rw [addRecord] at h
  obtain ⟨_, harity, h⟩ := bind_eq_ok h
  obtain ⟨gate, hgate, h⟩ := bind_eq_ok h
  obtain ⟨result, hadd, h⟩ := bind_eq_ok h
  obtain rfl := Except.ok.inj h
  have hr := r.checkArity_eq_ok_iff.1 (mapError_eq_ok harity)
  obtain ⟨hscheduled, hinserted⟩ := inserted_add ht (mapError_eq_ok hadd)
  have hstores := TimedGate.stores_of_ofRecord hr (mapError_eq_ok hgate)
  exact ⟨hscheduled, _, ⟨hr, hstores, rfl⟩, hinserted⟩

/-- **The entries store the records, reordered.** -/
theorem reordered_ofRecords {rs : List (Record α)} {t : TimedCircuit α}
    (h : ofRecords rs = .ok t) :
    t.Scheduled ∧ ∃ rs', Reordered (Apart Record.qubits) rs rs' ∧
      List.Forall₂ (fun r e => r.WellFormed ∧ TimedEntry.Stores r e) rs' t.entries := by
  obtain ⟨hscheduled, es, hes, hreordered⟩ := reordered_of_foldlM entries Scheduled
    (fun _ _ _ ht hr => inserted_addRecord ht hr) scheduled_empty h
  refine ⟨hscheduled, hreordered.exists_forall₂ ?_ hes⟩
  intro r r' e e' hr hr' hapart
  rw [Apart, hr.2.qubits, hr'.2.qubits] at hapart
  exact hapart

/-- The entries that store records are exported with their angles doubled. -/
theorem records_eq {rs : List (Record α)} {t : TimedCircuit α}
    (h : List.Forall₂ (fun r e => r.WellFormed ∧ TimedEntry.Stores r e) rs t.entries) :
    t.records = .ok (rs.map Record.redoubled) := by
  rw [records, mapM_eq_ok_iff, List.forall₂_map_right_iff]
  exact (h.imp fun _ _ he => TimedEntry.record_eq he.1 he.2).flip

end TimedCircuit

end Timed

/-! ### There and back -/

/-- A conversion there and back keeps the order: the native circuit stores the records, those that
share a qubit in the same order, and the exported circuit has their names and qubits up to
exchanging neighbours without a common qubit, whatever calls its tokens are taken for. -/
structure KeepsOrder {γ : Type} (stores : Record Float → γ → Prop) (rs : List (Record Float))
    (native : List γ) (result : Except ConversionError Circuit) : Prop where
  stored : OrderKept (Apart Record.qubits) stores rs native
  exported : ∃ calls : List (GateCall Float), result = .ok ⟨calls.map GateCall.token⟩ ∧
    Reordered (Apart Prod.snd) (rs.map Record.heading) (calls.map GateCall.heading)
  tokens : ∀ calls : List (GateCall Float), result = .ok ⟨calls.map GateCall.token⟩ →
    Reordered (Apart Prod.snd) (rs.map Record.heading) (calls.map GateCall.heading)
  parsed : ∀ c rs', result = .ok c → c.gates = .ok rs' →
    Reordered (Apart Prod.snd) (rs.map Record.heading) (rs'.map Record.heading)

/-- A circuit that stores reordered records and exports calls of them keeps the order. -/
theorem keepsOrder_of_reordered {γ : Type} {stores : Record Float → γ → Prop}
    {rs rs' : List (Record Float)} {native : List γ} {call : Record Float → GateCall Float}
    (hreordered : Reordered (Apart Record.qubits) rs rs') (hnative : List.Forall₂ stores rs' native)
    (hcall : ∀ r ∈ rs', (call r).Exports r) :
    KeepsOrder stores rs native (.ok ⟨(rs'.map call).map GateCall.token⟩) := by
  have hheadings := reordered_headings hreordered
  have hcalls : Reordered (Apart Prod.snd) (rs.map Record.heading)
      ((rs'.map call).map GateCall.heading) := by
    have hmap : (rs'.map call).map GateCall.heading = rs'.map Record.heading := by
      rw [List.map_map]
      exact List.map_congr_left fun r hr => (hcall r hr).heading
    rwa [hmap]
  refine ⟨hreordered.orderKept (fun _ _ => Apart.symm) hnative, ⟨rs'.map call, rfl, hcalls⟩,
    fun calls htokens => ?_, fun c parsed hc hparsed => ?_⟩
  · rw [← map_heading_eq_of_map_token_eq (Circuit.mk.inj (Except.ok.inj htokens))]
    exact hcalls
  · obtain rfl := Except.ok.inj hc
    rw [headings_of_gates hcall hparsed]
    exact hheadings

/-- **Scheduling keeps the order of application.** -/
theorem scheduling_keeps_order (c : Circuit) :
    (∀ m, MomentCircuit.ofCircuit c = .ok m → ∃ rs, c.gates = .ok rs ∧
      KeepsOrder MomentOperation.Stores rs m.operations m.toCircuit) ∧
    ∀ t, TimedCircuit.ofCircuit c = .ok t → ∃ rs, c.gates = .ok rs ∧
      KeepsOrder TimedEntry.Stores rs t.entries t.toCircuit ∧
      t.entries.Pairwise fun e e' => e.before e' := by
  constructor
  · intro m h
    rw [MomentCircuit.ofCircuit] at h
    obtain ⟨rs, hrs, h⟩ := bind_eq_ok h
    obtain ⟨rs', hreordered, hstored⟩ := MomentCircuit.reordered_ofRecords h
    refine ⟨rs, mapError_eq_ok hrs, ?_⟩
    rw [MomentCircuit.toCircuit, MomentCircuit.calls_eq hstored]
    obtain ⟨hwellFormed, hstored⟩ := (List.forall₂_and_left ..).1 hstored
    exact keepsOrder_of_reordered hreordered (hstored.imp fun _ _ hop => hop.1)
      fun r hr => (hwellFormed r hr).exports_halfTurnCall
  · intro t h
    rw [TimedCircuit.ofCircuit] at h
    obtain ⟨rs, hrs, h⟩ := bind_eq_ok h
    obtain ⟨hscheduled, rs', hreordered, hstored⟩ := TimedCircuit.reordered_ofRecords h
    refine ⟨rs, mapError_eq_ok hrs, ?_, hscheduled.sorted⟩
    have htokens : (rs'.map Record.redoubled).map Record.text =
        (rs'.map fun r => r.redoubled.call).map GateCall.token := by
      rw [List.map_map, List.map_map]
      exact List.map_congr_left fun r _ => r.redoubled.token_call.symm
    rw [TimedCircuit.toCircuit, TimedCircuit.records_eq hstored, ok_bind, Circuit.ofRecords,
      htokens]
    obtain ⟨hwellFormed, hstored⟩ := (List.forall₂_and_left ..).1 hstored
    exact keepsOrder_of_reordered hreordered hstored
      fun r hr => (hwellFormed r hr).exports_redoubled

/-- Three gates, the last of which moves to the front. -/
theorem scheduling_keeps_order_three :
    (∃ rs, (⟨["X(1)", "CX(0, 1)", "RZ(PI)(2)"]⟩ : Circuit).gates = .ok rs ∧
      KeepsOrder MomentOperation.Stores rs
        [⟨.x, [1]⟩, ⟨.rz (Scalar.pi / Scalar.pi), [2]⟩, ⟨.cnot, [0, 1]⟩]
        (MomentCircuit.toCircuit
          ⟨[[⟨.x, [1]⟩, ⟨.rz (Scalar.pi / Scalar.pi), [2]⟩], [⟨.cnot, [0, 1]⟩]]⟩)) ∧
    ∃ rs, (⟨["X(1)", "CX(0, 1)", "RZ(PI)(2)"]⟩ : Circuit).gates = .ok rs ∧
      KeepsOrder TimedEntry.Stores rs
        [⟨0, [1], .plain .x⟩, ⟨0, [2], .rotation .rz (Scalar.pi / Scalar.two)⟩,
          ⟨1, [0, 1], .plain .cx⟩]
        (TimedCircuit.toCircuit ⟨[⟨0, [1], .plain .x⟩,
          ⟨0, [2], .rotation .rz (Scalar.pi / Scalar.two)⟩, ⟨1, [0, 1], .plain .cx⟩]⟩) ∧
      [⟨0, [1], .plain .x⟩, ⟨0, [2], .rotation .rz (Scalar.pi / Scalar.two)⟩,
        (⟨1, [0, 1], .plain .cx⟩ : TimedEntry Float)].Pairwise fun e e' => e.before e' :=
  ⟨(scheduling_keeps_order ⟨["X(1)", "CX(0, 1)", "RZ(PI)(2)"]⟩).1
      ⟨[[⟨.x, [1]⟩, ⟨.rz (Scalar.pi / Scalar.pi), [2]⟩], [⟨.cnot, [0, 1]⟩]]⟩ (by decide +kernel),
    (scheduling_keeps_order ⟨["X(1)", "CX(0, 1)", "RZ(PI)(2)"]⟩).2
      ⟨[⟨0, [1], .plain .x⟩, ⟨0, [2], .rotation .rz (Scalar.pi / Scalar.two)⟩,
        ⟨1, [0, 1], .plain .cx⟩]⟩ (by decide +kernel)⟩

end CircuitExchange
