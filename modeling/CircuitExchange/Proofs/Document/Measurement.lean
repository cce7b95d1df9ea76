import Mathlib
import CircuitExchange.Proofs.Register.Meaning

/-!
Measurements and conversion. Measurements are not exported, but in a circuit of moments they take
up room: what is appended after a measurement of its qubits goes to a later moment. Without them the
same operations stand in other moments and come out in another order, in which only operations
without a common qubit have changed places.

* `MomentCircuit.of_foldlM_append`: appended operations are valid, and only reordered.
* `MomentCircuit.exists_exported`: what a circuit of appended operations is exported as.
* `Circuit.toOption_qubitCount_of_perm`: the implied size does not depend on the order of tokens.
* `RegisterCircuit.toCircuit_unmeasured`: the export of a register circuit without measurements.
* `conversion_ignores_measurements`: both kinds of circuits.
-/

namespace CircuitExchange

/-! ### Operations -/

namespace MomentOperation

variable {α : Type} [Scalar α] {op : MomentOperation α}

/-- The call that a valid operation is exported as, if it is. -/
def exported? (op : MomentOperation α) : Option (GateCall α) :=
  match canonicalGate? op.gate with
  | .ok gate? => gate?.map fun (name, angles) => ⟨name, angles, op.qubits⟩
  | .error _ => none

theorem call?_eq_exported? (hvalid : op.validate = .ok ()) (hgate : op.gate ≠ .iswap) :
    op.call? = .ok op.exported? := by
  rw [call?, hvalid, exported?]
  obtain ⟨gate, qubits⟩ := op
  cases gate
  case iswap => exact absurd rfl hgate
  all_goals rfl

theorem call?_eq_error (hvalid : op.validate = .ok ()) (hgate : op.gate = .iswap) :
    op.call? = .error (.unsupportedGate "ISWAP") := by
  rw [call?, hvalid, hgate]
  rfl

theorem exported?_eq_none (h : op.gate.isMeasurement = true) : op.exported? = none := by
  obtain ⟨gate, qubits⟩ := op
  cases gate
  case measure => rfl
  all_goals cases h

/-- Nothing is lost of the calls without the measurements. -/
theorem filterMap_exported?_filter (ops : List (MomentOperation α)) :
    (ops.filter (!·.gate.isMeasurement)).filterMap exported? = ops.filterMap exported? := by
  rw [List.filterMap_filter]
  refine List.filterMap_congr fun op _ => ?_
  cases hmeasurement : op.gate.isMeasurement with
  | false => rfl
  | true => exact (exported?_eq_none hmeasurement).symm

theorem qubits_of_exported? {call : GateCall α} (h : op.exported? = some call) :
    call.qubits = op.qubits := by
  rw [exported?] at h
  split at h
  · obtain ⟨_, -, rfl⟩ := Option.map_eq_some_iff.1 h
    rfl
  · cases h

end MomentOperation

/-! ### Circuits of moments -/

namespace MomentCircuit

section Append

variable {α : Type} {ops : List (MomentOperation α)}

/-- Valid operations can be appended in any number. -/
theorem exists_foldlM_append (h : ∀ op ∈ ops, op.validate = .ok ()) (m : MomentCircuit α) :
    ∃ m', ops.foldlM append m = .ok m' := by
  refine exists_foldlM_ok (fun op hop m => ?_) m
  rw [append, h op hop]
  exact ⟨_, rfl⟩

/-- **Appended operations are valid and only reordered.** -/
theorem of_foldlM_append {m : MomentCircuit α} (h : ops.foldlM append empty = .ok m) :
    (∀ op ∈ ops, op.validate = .ok ()) ∧
      Reordered (Apart MomentOperation.qubits) ops m.operations := by
  have hstep : ∀ (m : MomentCircuit α) op m', True → m.append op = .ok m' →
      True ∧ ∃ b, (op.validate = .ok () ∧ op = b) ∧
        Inserted (Apart MomentOperation.qubits) b m.operations m'.operations := by
    intro m op m' _ happend
    obtain ⟨hvalid, hinserted⟩ := inserted_append happend
    exact ⟨trivial, op, ⟨hvalid, rfl⟩, hinserted⟩
  obtain ⟨-, bs, hbs, hreordered⟩ := reordered_of_foldlM operations _ hstep trivial h
  obtain ⟨hvalid, heq⟩ := (List.forall₂_and_left ..).1 hbs
  rw [List.forall₂_eq_eq_eq] at heq
  subst heq
  exact ⟨hvalid, hreordered⟩

end Append

variable {m : MomentCircuit Float} {ops : List (MomentOperation Float)}

/-- **Appended operations are exported up to their order.** -/
theorem exists_exported (h : ops.foldlM append empty = .ok m)
    (hgates : ∀ op ∈ ops, op.gate ≠ .iswap) :
    ∃ calls, m.toCircuit = .ok ⟨calls.map GateCall.token⟩ ∧
      Reordered (Apart GateCall.qubits) (ops.filterMap MomentOperation.exported?) calls := by
  obtain ⟨hvalid, hreordered⟩ := of_foldlM_append h
  have hcalls : m.operations.mapM MomentOperation.call? =
      .ok (m.operations.map MomentOperation.exported?) := by
    rw [mapM_eq_ok_iff, List.forall₂_map_right_iff, List.forall₂_same]
    intro op hop
    have hmem := hreordered.perm.mem_iff.2 hop
    exact MomentOperation.call?_eq_exported? (hvalid op hmem) (hgates op hmem)
  refine ⟨m.operations.filterMap MomentOperation.exported?, ?_, hreordered.filterMap ?_⟩
  · rw [toCircuit, calls, hcalls, ok_bind, List.filterMap_map]
    rfl
  · intro op op' call call' hcall hcall' hapart
    rwa [Apart, MomentOperation.qubits_of_exported? hcall,
      MomentOperation.qubits_of_exported? hcall']

/-- A gate without a canonical counterpart is named, wherever it stands. -/
theorem toCircuit_eq_error (h : ops.foldlM append empty = .ok m)
    (hgate : ∃ op ∈ ops, op.gate = .iswap) :
    m.toCircuit = .error (.moment (.unsupportedGate "ISWAP")) := by
  obtain ⟨hvalid, hreordered⟩ := of_foldlM_append h
  have hmem : ∀ op ∈ m.operations, op.validate = .ok () := fun op hop =>
    hvalid op (hreordered.perm.mem_iff.2 hop)
  obtain ⟨op, hop, hswap⟩ := hgate
  obtain ⟨pre, first, post, hsplit, hpre, hfirst⟩ :=
    exists_first_not (P := fun op => op.gate ≠ .iswap) fun hall =>
      hall op (hreordered.perm.mem_iff.1 hop) hswap
  rw [hsplit, List.forall_mem_append, List.forall_mem_cons] at hmem
  have hcalls : m.operations.mapM MomentOperation.call? = .error (.unsupportedGate "ISWAP") := by
    rw [hsplit]
    refine mapM_append_eq_error (fun op hop => ?_)
      (MomentOperation.call?_eq_error hmem.2.1 (not_not.1 hfirst))
    exact ⟨_, MomentOperation.call?_eq_exported? (hmem.1 op hop) (hpre op hop)⟩
  rw [toCircuit, calls, hcalls]
  rfl

end MomentCircuit

/-! ### Exchanged tokens -/

/-- The implied size does not depend on the order of the tokens. -/
theorem Circuit.toOption_qubitCount_of_perm {c c' : Circuit} (h : c.tokens.Perm c'.tokens) :
    c.qubitCount.toOption = c'.qubitCount.toOption := by
  have hsize : ∀ {c c' : Circuit}, c.tokens.Perm c'.tokens → ∀ {n : UInt32},
      c.qubitCount = .ok n → c'.qubitCount = .ok n := by
    intro c c' h n hn
    obtain ⟨rs, hrs, rfl⟩ := map_eq_ok hn
    obtain ⟨rs', hrs', hperm⟩ := List.perm_comp_forall₂ h.symm (Circuit.gates_eq_ok_iff.1 hrs)
    rw [qubitCount, Circuit.gates_eq_ok_iff.2 hrs', Circuit.sizeOf_perm hperm.symm]
    rfl
  refine Option.ext fun n => ⟨fun hn => ?_, fun hn => ?_⟩
  · rw [hsize h (toOption_eq_some hn)]
    rfl
  · rw [hsize h.symm (toOption_eq_some hn)]
    rfl

/-- The circuits have the tokens of the same calls, up to exchanging neighbours without a common
qubit, and imply the same number of qubits. Whatever calls the tokens are taken for, their names and
qubits are the same up to such exchanges. -/
structure Circuit.Exchanged (c c' : Circuit) : Prop where
  calls : ∃ calls calls' : List (GateCall Float), c = ⟨calls.map GateCall.token⟩ ∧
    c' = ⟨calls'.map GateCall.token⟩ ∧ Reordered (Apart GateCall.qubits) calls calls'
  tokens : ∀ calls calls' : List (GateCall Float), c = ⟨calls.map GateCall.token⟩ →
    c' = ⟨calls'.map GateCall.token⟩ →
    Reordered (Apart Prod.snd) (calls.map GateCall.heading) (calls'.map GateCall.heading)
  qubitCount : c.qubitCount.toOption = c'.qubitCount.toOption

theorem Circuit.exchanged_of_reordered {calls calls' : List (GateCall Float)}
    (h : Reordered (Apart GateCall.qubits) calls calls') :
    Circuit.Exchanged ⟨calls.map GateCall.token⟩ ⟨calls'.map GateCall.token⟩ where
  calls := ⟨calls, calls', rfl, rfl, h⟩
  tokens read read' hread hread' := by
    rw [← map_heading_eq_of_map_token_eq (Circuit.mk.inj hread),
      ← map_heading_eq_of_map_token_eq (Circuit.mk.inj hread')]
    exact h.map fun _ _ hapart => hapart
  qubitCount := toOption_qubitCount_of_perm (h.perm.map GateCall.token)

/-! ### Register circuits -/

namespace RegisterCircuit

/-- The circuit without its measurements. -/
def unmeasured {α : Type} (c : RegisterCircuit α) : RegisterCircuit α :=
  { c with instructions := c.instructions.filter (!·.gate.isMeasurement) }

/-- **Measurements are left out of the export**, which succeeds or fails as without them. -/
theorem toCircuit_unmeasured {c : RegisterCircuit Float}
    (h : ∀ inst ∈ c.instructions, inst.Valid c.qubitCount) :
    c.unmeasured.toCircuit = c.toCircuit := by
  have hcalls : c.unmeasured.calls = c.calls := by
    refine mapM_filter_flatten fun inst hinst hmeasurement => ?_
    obtain ⟨gate, qubits⟩ := inst
    cases gate
    case measure =>
      exact RegisterInstruction.calls_eq (h _ hinst) ⟨nofun, nofun⟩
    all_goals cases hmeasurement
  rw [toCircuit, toCircuit, hcalls]

end RegisterCircuit

/-- **Conversion ignores measurements.** Operations that can be appended can be appended without the
measurements among them; the two circuits are exported as the same calls up to exchanging neighbours
without a common qubit, or both not at all. A register circuit is exported as the circuit without
its measurements, or fails with the same error. -/
theorem conversion_ignores_measurements :
    (∀ {ops : List (MomentOperation Float)} {m : MomentCircuit Float},
      ops.foldlM MomentCircuit.append .empty = .ok m →
      ∃ m₀, (ops.filter (!·.gate.isMeasurement)).foldlM MomentCircuit.append .empty = .ok m₀ ∧
        (∀ c, m.toCircuit = .ok c → ∃ c₀, m₀.toCircuit = .ok c₀ ∧ c.Exchanged c₀) ∧
        ((∀ op ∈ m.operations, op.gate ≠ .iswap) → ∃ c, m.toCircuit = .ok c) ∧
        ((∃ op ∈ m.operations, op.gate = .iswap) →
          m.toCircuit = .error (.moment (.unsupportedGate "ISWAP")) ∧
          m₀.toCircuit = .error (.moment (.unsupportedGate "ISWAP")))) ∧
    ∀ {r : RegisterCircuit Float}, r.Built → r.unmeasured.toCircuit = r.toCircuit := by
  refine ⟨fun {ops m} h => ?_, fun h => RegisterCircuit.toCircuit_unmeasured h.valid⟩
  obtain ⟨hvalid, hreordered⟩ := MomentCircuit.of_foldlM_append h
  obtain ⟨m₀, hm₀⟩ := MomentCircuit.exists_foldlM_append
    (fun op hop => hvalid op (List.mem_of_mem_filter hop)) (MomentCircuit.empty (α := Float))
  refine ⟨m₀, hm₀, fun c hc => ?_, fun hgates => ?_, ?_⟩
  · have hgates : ∀ op ∈ ops, op.gate ≠ .iswap := fun op hop hswap => by
      rw [MomentCircuit.toCircuit_eq_error h ⟨op, hop, hswap⟩] at hc
      cases hc
    obtain ⟨calls, hcalls, hexported⟩ := MomentCircuit.exists_exported h hgates
    obtain ⟨calls₀, hcalls₀, hexported₀⟩ := MomentCircuit.exists_exported hm₀
      fun op hop => hgates op (List.mem_of_mem_filter hop)
    rw [MomentOperation.filterMap_exported?_filter] at hexported₀
    obtain rfl := Except.ok.inj (hc.symm.trans hcalls)
    exact ⟨_, hcalls₀,
      Circuit.exchanged_of_reordered ((hexported.symm fun _ _ => Apart.symm).trans hexported₀)⟩
  · obtain ⟨calls, hcalls, -⟩ := MomentCircuit.exists_exported h fun op hop =>
      hgates op (hreordered.perm.mem_iff.1 hop)
    exact ⟨_, hcalls⟩
  · rintro ⟨op, hop, hswap⟩
    have hmem := hreordered.perm.mem_iff.2 hop
    have hkept : (!op.gate.isMeasurement) = true := by rw [hswap]; rfl
    exact ⟨MomentCircuit.toCircuit_eq_error h ⟨op, hmem, hswap⟩,
      MomentCircuit.toCircuit_eq_error hm₀ ⟨op, List.mem_filter.2 ⟨hmem, hkept⟩, hswap⟩⟩

/-- A measurement that pushes a later gate behind a gate on another qubit. -/
theorem conversion_ignores_measurements_three :
    (∃ c c₀, MomentCircuit.toCircuit
        ⟨[[⟨.h, [0]⟩, ⟨.z, [2]⟩], [⟨.measure "m", [0, 1]⟩], [⟨.x, [1]⟩]]⟩ = .ok c ∧
      MomentCircuit.toCircuit ⟨[[⟨.h, [0]⟩, ⟨.x, [1]⟩, ⟨.z, [2]⟩]]⟩ = .ok c₀ ∧ c.Exchanged c₀) ∧
    RegisterCircuit.toCircuit ⟨2, 1, [⟨.h, [0]⟩, ⟨.sdg, [1]⟩]⟩ =
      RegisterCircuit.toCircuit ⟨2, 1, [⟨.h, [0]⟩, ⟨.measure 0, [0]⟩, ⟨.sdg, [1]⟩]⟩ := by
  constructor
  · have happended : List.foldlM (MomentCircuit.append (α := Float)) .empty
        [⟨.h, [0]⟩, ⟨.measure "m", [0, 1]⟩, ⟨.x, [1]⟩, ⟨.z, [2]⟩] =
          .ok ⟨[[⟨.h, [0]⟩, ⟨.z, [2]⟩], [⟨.measure "m", [0, 1]⟩], [⟨.x, [1]⟩]]⟩ := rfl
    obtain ⟨m₀, hm₀, hexchanged, htotal, -⟩ := conversion_ignores_measurements.1 happended
    obtain rfl : ⟨[[⟨.h, [0]⟩, ⟨.x, [1]⟩, ⟨.z, [2]⟩]]⟩ = m₀ := Except.ok.inj hm₀
    obtain ⟨c, hc⟩ := htotal (by simp [MomentCircuit.operations])
    exact ⟨c, (hexchanged c hc).choose, hc, (hexchanged c hc).choose_spec⟩
  · have hbuilt : RegisterCircuit.Built (α := Float)
        ⟨2, 1, [⟨.h, [0]⟩, ⟨.measure 0, [0]⟩, ⟨.sdg, [1]⟩]⟩ :=
      .append (.append (.append (.new 2 1) (show RegisterCircuit.append _ .h [0] = _ from rfl))
        (show RegisterCircuit.append _ (.measure 0) [0] = _ from rfl))
        (show RegisterCircuit.append _ .sdg [1] = _ from rfl)
    have hunmeasured : RegisterCircuit.unmeasured (α := Float)
        ⟨2, 1, [⟨.h, [0]⟩, ⟨.measure 0, [0]⟩, ⟨.sdg, [1]⟩]⟩ =
          ⟨2, 1, [⟨.h, [0]⟩, ⟨.sdg, [1]⟩]⟩ := rfl
    rw [← hunmeasured]
    exact conversion_ignores_measurements.2 hbuilt

end CircuitExchange
