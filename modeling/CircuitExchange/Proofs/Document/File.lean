import Mathlib
import CircuitExchange.Document.Basic
import CircuitExchange.Proofs.Json.Text
import CircuitExchange.Proofs.Timed.Entries

/-!
Circuits in files are read back as they are. Every form of JSON is inverted by its reader without
a look at the text; the text is read back as long as its numbers are.

* `Circuit.ofJson?_toJson`, `MomentCircuit.ofJson?_toJson`, `RegisterCircuit.ofJson?_toJson`,
  `TimedCircuit.entriesOfJson?_toJson`: readers undo the forms that are written.
* `TimedGate.parametersOfJson?_entries`: parameters are read back one after the other.
* `MomentCircuit.recoverable_toJson` and its likes: the text gives the tree back.
* `native_file_round_trip`: what is read from a written file is the circuit.
-/

namespace CircuitExchange

namespace Json

/-- A list is read back from an array if its items are. -/
theorem list?_map {α : Type} {read : Json → Option α} {write : α → Json} {as : List α}
    (h : ∀ a ∈ as, read (write a) = some a) : (array (as.map write)).list? read = some as := by
  change (as.map write).mapM read = some as
  induction as with
  | nil => rfl
  | cons a as ih =>
    obtain ⟨ha, has⟩ := List.forall_mem_cons.1 h
    rw [List.map_cons, List.mapM_cons, ha, ih has]
    rfl

theorem nat?_ofNat {bits n : Nat} (h : n < 1 <<< bits) : (ofNat n).nat? bits = some n :=
  if_pos ⟨Int.natCast_nonneg n, h⟩

theorem uint32?_ofNat (n : UInt32) : (ofNat n.toNat).uint32? = some n := by
  rw [uint32?, nat?_ofNat n.toNat_lt, Option.map_some, UInt32.ofNat_toNat]

theorem uint64?_ofNat (n : UInt64) : (ofNat n.toNat).uint64? = some n := by
  rw [uint64?, nat?_ofNat n.toNat_lt, Option.map_some, UInt64.ofNat_toNat]

theorem qubits?_ofQubits (qubits : List Qubit) : (ofQubits qubits).qubits? = some qubits :=
  list?_map fun q _ => uint32?_ofNat q

end Json

theorem Circuit.ofJson?_toJson (c : Circuit) : ofJson? c.toJson = some c := by
  have htokens : (Json.array (c.tokens.map .string)).list? Json.string? = some c.tokens :=
    Json.list?_map fun _ _ => rfl
  rw [ofJson?, toJson, htokens]
  rfl

theorem MomentGate.ofJson?_toJson (g : MomentGate Float) : ofJson? g.toJson = some g := by
  cases g <;> rfl

theorem MomentOperation.ofJson?_toJson (op : MomentOperation Float) :
    ofJson? op.toJson = some op := by
  change (MomentGate.ofJson? op.gate.toJson).bind (fun gate =>
    (Json.ofQubits op.qubits).qubits?.bind fun qubits => some (MomentOperation.mk gate qubits)) = _
  rw [MomentGate.ofJson?_toJson, Option.bind_some, Json.qubits?_ofQubits]
  rfl

theorem MomentCircuit.ofJson?_toJson (c : MomentCircuit Float) : ofJson? c.toJson = some c := by
  have hmoment : ∀ m : Moment Float, momentOfJson? (momentToJson m) = some m := fun m =>
    Json.list?_map fun op _ => op.ofJson?_toJson
  change ((Json.array (c.moments.map momentToJson)).list? momentOfJson?).bind (fun moments =>
    some (MomentCircuit.mk moments)) = _
  rw [Json.list?_map fun m _ => hmoment m]
  rfl

theorem RegisterInstruction.ofJson?_toJson (inst : RegisterInstruction Float) :
    ofJson? inst.toJson = some inst := by
  obtain ⟨gate, qubits⟩ := inst
  have hqubits := Json.qubits?_ofQubits qubits
  cases gate
  case measure clbit =>
    change (Json.ofQubits qubits).qubits?.bind (fun qubits =>
      ((Json.ofNat clbit.toNat).uint32?.bind fun clbit =>
        some (RegisterGate.measure clbit)).bind fun gate =>
          some (RegisterInstruction.mk gate qubits)) = _
    rw [hqubits, Json.uint32?_ofNat]
    rfl
  all_goals
    change (Json.ofQubits qubits).qubits?.bind (fun qubits =>
      some (RegisterInstruction.mk _ qubits)) = _
    rw [hqubits]
    rfl

theorem RegisterCircuit.ofJson?_toJson (c : RegisterCircuit Float) : ofJson? c.toJson = some c := by
  have hinsts : (Json.array (c.instructions.map RegisterInstruction.toJson)).list?
      RegisterInstruction.ofJson? = some c.instructions :=
    Json.list?_map fun inst _ => inst.ofJson?_toJson
  change (Json.ofNat c.qubitCount.toNat).uint32?.bind (fun qubits =>
    (Json.ofNat c.clbitCount.toNat).uint32?.bind fun clbits =>
      ((Json.array (c.instructions.map RegisterInstruction.toJson)).list?
        RegisterInstruction.ofJson?).bind fun insts =>
          some (RegisterCircuit.mk qubits clbits insts)) = _
  rw [Json.uint32?_ofNat, Json.uint32?_ofNat, hinsts]
  rfl

/-! ### Timed gates -/

theorem TimedName.ofText?_text (name : TimedName) : ofText? name.text = some name := by
  cases name <;> rfl

namespace TimedGate

variable {α : Type}

theorem insertParameter_eq_append {key : String} {value : α} {entries : List (String × α)}
    (h : ∀ p ∈ entries, p.1 < key) :
    insertParameter key value entries = entries ++ [(key, value)] := by
  induction entries with
  | nil => rfl
  | cons p rest ih =>
    obtain ⟨hp, hrest⟩ := List.forall_mem_cons.1 h
    rw [insertParameter, if_neg (lt_asymm hp), if_neg hp.ne', ih hrest, List.cons_append]

/-- **Parameters are read back.** Each of them comes after all that have been read. -/
theorem parametersOfJson?_entries (p : Parameters Float) :
    parametersOfJson? (.object (p.entries.map fun m => (m.1, .ofFloat m.2))) = some p := by
  have hfold : ∀ (later : List (String × Float)) (read p : Parameters Float),
      p.entries = read.entries ++ later →
      (later.map fun m => (m.1, Json.ofFloat m.2)).foldlM (fun parameters m => do
        return parameters.insert m.1 (← m.2.float?)) read = some p := by
    intro later
    induction later with
    | nil =>
      intro read p h
      rw [List.append_nil] at h
      exact congrArg some (Parameters.ext h.symm)
    | cons m later ih =>
      intro read p h
      have hread : ∀ m' ∈ read.entries, m'.1 < m.1 := fun m' hm' =>
        (List.pairwise_append.1 (h ▸ p.sorted)).2.2 m' hm' m (List.mem_cons_self ..)
      refine ih (read.insert m.1 m.2) p ?_
      rw [h, Parameters.entries_insert, insertParameter_eq_append hread, List.append_assoc,
        List.singleton_append]
  exact hfold p.entries .empty p rfl

theorem ofJson?_toJson (g : TimedGate Float) : ofJson? g.toJson = some g := by
  obtain ⟨name, parameters⟩ := g
  have hname := TimedName.ofText?_text name
  cases hentries : parameters.entries with
  | nil =>
    obtain rfl : parameters = .empty := Parameters.ext hentries
    change (TimedName.ofText? name.text).bind (fun name => some (TimedGate.plain name)) = _
    rw [hname]
    rfl
  | cons p rest =>
    have hparameters := parametersOfJson?_entries parameters
    have hjson : (TimedGate.mk name parameters).toJson = .object [("name", .string name.text),
        ("parameters", .object (parameters.entries.map fun p => (p.1, .ofFloat p.2)))] := by
      rw [toJson, hentries]
      rfl
    rw [hjson]
    change (TimedName.ofText? name.text).bind (fun name =>
      (parametersOfJson? (.object (parameters.entries.map fun p => (p.1, .ofFloat p.2)))).bind
        fun parameters => some (TimedGate.mk name parameters)) = _
    rw [hname, hparameters]
    rfl

end TimedGate

theorem TimedEntry.ofJson?_toJson (e : TimedEntry Float) : ofJson? e.toJson = some e := by
  change (Json.ofNat e.time.toNat).uint64?.bind (fun time =>
    (Json.ofQubits e.qubits).qubits?.bind fun qubits =>
      (TimedGate.ofJson? e.gate.toJson).bind fun gate =>
        some (TimedEntry.mk time qubits gate)) = _
  rw [Json.uint64?_ofNat, Json.qubits?_ofQubits, TimedGate.ofJson?_toJson]
  rfl

theorem TimedCircuit.entriesOfJson?_toJson (c : TimedCircuit Float) :
    entriesOfJson? c.toJson = some c.entries :=
  Json.list?_map fun e _ => TimedEntry.ofJson?_toJson e

/-! ### Text that is read back -/

namespace Json.Recoverable

/-- A line is read as what its value is read as. -/
theorem parse?_bind {α : Type} {j : Json} {a : α} {read : Json → Option α} (h : Recoverable j)
    (hread : read j = some a) (layout : Layout) :
    (parse? (j.text layout ++ "\n") >>= read) = some a := by
  rw [h.parse?_line, Option.bind_eq_bind, Option.bind_some, hread]

theorem ofNat {n : Nat} (h : n < UInt64.size) : Recoverable (.ofNat n) :=
  .number (takeNumber?_natural h)

theorem ofFloat {x : Float} (hx : x.isFinite) (h : Recovers x) : Recoverable (.ofFloat x) :=
  .number (h.takeNumber? hx)

theorem ofQubits (qubits : List Qubit) : Recoverable (.ofQubits qubits) := by
  refine .array fun j hj => ?_
  obtain ⟨q, -, rfl⟩ := List.mem_map.1 hj
  exact ofNat (Nat.lt_trans q.toNat_lt (by decide))

theorem arrayMap {α : Type} {write : α → Json} {as : List α} (h : ∀ a ∈ as, Recoverable (write a)) :
    Recoverable (.array (as.map write)) :=
  .array (List.forall_mem_map.2 h)

end Json.Recoverable

open Json (Recoverable)

theorem Circuit.recoverable_toJson (c : Circuit) : Recoverable c.toJson :=
  .arrayMap fun t _ => .string t

/-- The numbers of a gate. -/
def MomentGate.numbers {α : Type} : MomentGate α → List α
  | rx exponent | ry exponent | rz exponent => [exponent]
  | _ => []

theorem MomentGate.recoverable_toJson {g : MomentGate Float}
    (h : ∀ x ∈ g.numbers, Recoverable (.ofFloat x)) : Recoverable g.toJson := by
  cases g with
  | rx exponent | ry exponent | rz exponent =>
    have hexponent := h exponent (List.mem_singleton_self exponent)
    exact .object (by simp [Recoverable.string, hexponent])
  | _ => exact .object (by simp [Recoverable.string])

theorem MomentCircuit.recoverable_toJson {c : MomentCircuit Float}
    (h : ∀ op ∈ c.operations, ∀ x ∈ op.gate.numbers, Recoverable (.ofFloat x)) :
    Recoverable c.toJson := by
  have hop : ∀ op ∈ c.operations, Recoverable op.toJson := fun op hop =>
    .object (by simp [MomentGate.recoverable_toJson (h op hop), Recoverable.ofQubits])
  have hmoment : ∀ m ∈ c.moments, Recoverable (momentToJson m) := fun m hm =>
    .object (List.forall_mem_singleton.2 (.arrayMap fun op hmem =>
      hop op (List.mem_flatten.2 ⟨m, hm, hmem⟩)))
  exact .object (List.forall_mem_singleton.2 (.arrayMap hmoment))

theorem RegisterGate.recoverable_values {g : RegisterGate Float}
    (h : ∀ x ∈ g.angles, Recoverable (.ofFloat x)) : ∀ m ∈ g.values, Recoverable m.2 := by
  cases g with
  | measure clbit =>
    exact List.forall_mem_singleton.2 (.ofNat (Nat.lt_trans clbit.toNat_lt (by decide)))
  | rx _ | ry _ | rz _ | u1 _ | u2 _ _ | u3 _ _ _ => simpa [values, angles] using h
  | _ => exact fun _ hm => absurd hm List.not_mem_nil

theorem RegisterCircuit.recoverable_toJson {c : RegisterCircuit Float}
    (h : ∀ inst ∈ c.instructions, ∀ x ∈ inst.gate.angles, Recoverable (.ofFloat x)) :
    Recoverable c.toJson := by
  have hinst : ∀ inst ∈ c.instructions, Recoverable inst.toJson := by
    intro inst hmem
    refine .object (List.forall_mem_append.2 ⟨List.forall_mem_cons.2 ⟨.string _, ?_⟩, ?_⟩)
    · exact RegisterGate.recoverable_values (h inst hmem)
    · exact List.forall_mem_singleton.2 (.ofQubits _)
  have hsize : ∀ n : UInt32, Recoverable (.ofNat n.toNat) := fun n =>
    .ofNat (Nat.lt_trans n.toNat_lt (by decide))
  exact .object (by simp [hsize, Recoverable.arrayMap hinst])

theorem TimedGate.recoverable_toJson {g : TimedGate Float}
    (h : ∀ p ∈ g.parameters.entries, Recoverable (.ofFloat p.2)) : Recoverable g.toJson := by
  refine .object (List.forall_mem_cons.2 ⟨.string _, ?_⟩)
  split
  · exact fun _ hm => absurd hm List.not_mem_nil
  · exact List.forall_mem_singleton.2 (.object (List.forall_mem_map.2 h))

theorem TimedCircuit.recoverable_toJson {c : TimedCircuit Float}
    (h : ∀ e ∈ c.entries, ∀ p ∈ e.gate.parameters.entries, Recoverable (.ofFloat p.2)) :
    Recoverable c.toJson := by
  refine .arrayMap fun e he => .object ?_
  have htime : Recoverable (.ofNat e.time.toNat) := .ofNat e.time.toNat_lt
  simp [htime, Recoverable.ofQubits, TimedGate.recoverable_toJson (h e he)]

/-! ### Files -/

namespace Document

/-- The numbers of a circuit that are not counts. -/
def numbers : Document → List Float
  | canonical _ => []
  | moment c => c.operations.flatMap (·.gate.numbers)
  | register c => c.instructions.flatMap (·.gate.angles)
  | timed c => c.entries.flatMap fun e => e.gate.parameters.entries.map (·.2)

/-- Any circuit of moments or over a register, or a circuit of timed gates that calls lead to. -/
inductive Native : Document → Prop
  | moment (c : MomentCircuit Float) : Native (moment c)
  | register (c : RegisterCircuit Float) : Native (register c)
  | timed {c : TimedCircuit Float} (h : c.Reachable) : Native (timed c)

end Document

/-- **Files give their circuits back**, in both layouts: any circuit of moments or over a register,
and any circuit of timed gates that calls lead to, if its numbers are finite and the reader of
numbers finds them again. -/
theorem native_file_round_trip {d : Document} (hd : d.Native)
    (hfinite : ∀ x ∈ d.numbers, x.isFinite)
    (hlibrary : ∀ x ∈ d.numbers, x.isFinite → Json.Recovers x) (layout : Json.Layout) :
    Document.read d.format (d.render layout) = .ok d := by
  have hnumbers : ∀ x ∈ d.numbers, Recoverable (.ofFloat x) := fun x hx =>
    .ofFloat (hfinite x hx) (hlibrary x hx (hfinite x hx))
  cases hd with
  | moment c =>
    have htext : Recoverable c.toJson := MomentCircuit.recoverable_toJson fun op hop x hx =>
      hnumbers x (List.mem_flatMap.2 ⟨op, hop, hx⟩)
    change Document.read.orJson .moment
      (Json.parse? (c.toJson.text layout ++ "\n") >>= MomentCircuit.ofJson?) .moment = _
    rw [htext.parse?_bind c.ofJson?_toJson]
    rfl
  | register c =>
    have htext : Recoverable c.toJson := RegisterCircuit.recoverable_toJson fun inst hinst x hx =>
      hnumbers x (List.mem_flatMap.2 ⟨inst, hinst, hx⟩)
    change Document.read.orJson .register
      (Json.parse? (c.toJson.text layout ++ "\n") >>= RegisterCircuit.ofJson?) .register = _
    rw [htext.parse?_bind c.ofJson?_toJson]
    rfl
  | @timed c hreachable =>
    have htext : Recoverable c.toJson := TimedCircuit.recoverable_toJson fun e he p hp =>
      hnumbers p.2 (List.mem_flatMap.2 ⟨e, he, List.mem_map_of_mem hp⟩)
    change (Document.readTimed (c.toJson.text layout ++ "\n")).map Document.timed = _
    rw [Document.readTimed, htext.take?_line]
    dsimp only
    rw [c.entriesOfJson?_toJson]
    dsimp only
    rw [hreachable.consistent.ofEntries_entries]
    rfl

/-- Strings with escapes, a measurement of two qubits next to a rotation, a gate at a given time
before one that is added, and parameters of which only one is an angle. -/
theorem native_file_round_trip_escapes :
    (∀ layout, Document.read .moment ((Document.moment
        ⟨[[⟨.rx 0.5, [2]⟩, ⟨.measure "\"\\\n\x01π", [1, 0]⟩], []]⟩).render layout) =
      .ok (.moment ⟨[[⟨.rx 0.5, [2]⟩, ⟨.measure "\"\\\n\x01π", [1, 0]⟩], []]⟩)) ∧
    ∃ c : TimedCircuit Float,
      c.entries = [⟨7, [1, 0], .plain .cx⟩,
        ⟨8, [0], ⟨.rz, ⟨[("\t", -1e-7), ("theta", 0.5)], by decide +kernel⟩⟩⟩] ∧
      ∀ layout, Document.read .timed ((Document.timed c).render layout) = .ok (.timed c) := by
  refine ⟨fun layout => native_file_round_trip (.moment _) (by decide +kernel) (by decide +kernel)
    layout, ?_⟩
  have hplaced := TimedCircuit.Reachable.empty.edit (α := Float) (.addAt (.plain .cx) [1, 0] 7)
  have hadded := hplaced.edit (.add ((TimedGate.rotation .rz 0.5).setParameter "\t" (-1e-7)) [0])
  generalize hc : ((TimedCircuit.Edit.add
    ((TimedGate.rotation .rz 0.5).setParameter "\t" (-1e-7)) [0]).outcome
      ((TimedCircuit.Edit.addAt (.plain .cx) [1, 0] 7).outcome .empty).2).2 = c at hadded
  have hentries : c.entries = [⟨7, [1, 0], .plain .cx⟩,
      ⟨8, [0], (TimedGate.rotation .rz 0.5).setParameter "\t" (-1e-7)⟩] := by
    rw [← hc]
    decide +kernel
  have hnumbers : (Document.timed c).numbers = [-1e-7, 0.5] := by
    rw [Document.numbers, hentries]
    decide +kernel
  have hread := native_file_round_trip (.timed hadded)
    (by rw [hnumbers]; decide +kernel) (by rw [hnumbers]; decide +kernel)
  exact ⟨c, hentries, hread⟩

end CircuitExchange
