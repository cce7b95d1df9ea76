import Mathlib
import CircuitExchange.Proofs.Order.Earliest

/-!
Circuits of moments, edited in place. An operation is checked before anything is changed, so that a
call which fails leaves the circuit as it was; an index equal to the number of moments makes a new
moment first.

* `MomentCircuit.putOperation`, `MomentCircuit.Edit`: the calls that change a circuit, as
  computations over the circuit they change.
* `MomentCircuit.Edit.outcome_eq`: an edit appends an operation, or fails and changes nothing.
* `MomentCircuit.AddedAt`: what appending changes, and where.
* `MomentCircuit.Packed`: no moment is empty, and no operation could be one moment earlier.
* `MomentCircuit.Reachable`: the circuits that edits lead to.
* `append_keeps_structure`: the effect of every edit on any circuit, and what edits build up.
-/

namespace CircuitExchange

namespace MomentCircuit

variable {α : Type}

/-! ### Editing in place -/

/-- A computation that changes a circuit and may fail. What it has changed before it fails stays
changed. -/
abbrev Editing (α β : Type) := ExceptT MomentError (StateM (MomentCircuit α)) β

/-- Adds an operation to the moment at its place, which is made first if there is none. -/
def putOperation (op : MomentOperation α) : Editing α Unit := do
  MonadExcept.ofExcept op.validate
  let index := place op.qubits (← get).moments
  if index = (← get).moments.length then
    modify fun c => ⟨c.moments ++ [[]]⟩
  modify fun c => ⟨c.moments.modify index (· ++ [op])⟩

/-- A call that changes a circuit. -/
inductive Edit (α : Type) where
  | append (op : MomentOperation α)
  | push (gate : MomentGate α) (qubits : List Qubit)

namespace Edit

/-- What a call does. -/
def perform : Edit α → Editing α Unit
  | append op => putOperation op
  | push gate qubits => putOperation ⟨gate, qubits⟩

/-- The operation a call asks for. -/
def operation : Edit α → MomentOperation α
  | append op => op
  | push gate qubits => ⟨gate, qubits⟩

/-- What a call gives, and the circuit it leaves behind. -/
def outcome (edit : Edit α) (c : MomentCircuit α) : Except MomentError Unit × MomentCircuit α :=
  edit.perform.run.run c

end Edit

/-- The moment at an index up to their number, with the operation added to it. -/
theorem modify_eq_addAt (op : MomentOperation α) {n : ℕ} {ms : List (Moment α)}
    (h : n ≤ ms.length) :
    (if n = ms.length then ms ++ [[]] else ms).modify n (· ++ [op]) = addAt op n ms := by
  induction ms generalizing n with
  | nil =>
    obtain rfl := Nat.le_zero.1 h
    rfl
  | cons m rest ih =>
    cases n with
    | zero => rfl
    | succ n =>
      rw [addAt, ← ih (Nat.le_of_succ_le_succ h), List.length_cons]
      by_cases hn : n = rest.length
      · rw [if_pos (congrArg (· + 1) hn), if_pos hn]
        rfl
      · rw [if_neg (hn ∘ Nat.succ.inj), if_neg hn]
        rfl

/-- **An edit appends the operation it asks for**, or fails and leaves the circuit as it was. -/
theorem Edit.outcome_eq (edit : Edit α) (c : MomentCircuit α) :
    edit.outcome c =
      match c.append edit.operation with
      | .ok c' => (.ok (), c')
      | .error e => (.error e, c) := by
  have hput : ∀ op : MomentOperation α, (putOperation op).run.run c =
      match c.append op with
      | .ok c' => (.ok (), c')
      | .error e => (.error e, c) := by
    intro op
    rw [MomentCircuit.append, ← modify_eq_addAt op (place_le_length op.qubits)]
    cases hvalid : op.validate with
    | error e =>
      rw [putOperation, hvalid]
      rfl
    | ok _ =>
      rw [putOperation, hvalid]
      change (if place op.qubits c.moments = c.moments.length then
        modify (fun c => ⟨c.moments ++ [[]]⟩) >>= fun _ =>
          modify fun m => ⟨m.moments.modify (place op.qubits c.moments) (· ++ [op])⟩
        else modify fun m => ⟨m.moments.modify (place op.qubits c.moments) (· ++ [op])⟩ :
          Editing α Unit).run.run c = _
      split <;> rfl
  cases edit with
  | append op => exact hput op
  | push gate qubits => exact hput ⟨gate, qubits⟩

/-! ### Where an operation goes -/

section Added

variable {n : ℕ} {op : MomentOperation α} {ms ms' : List (Moment α)}

/-- The operation is at the end of a moment, the first after all that hold one it shares a qubit
with, and all other moments are as they were. -/
structure AddedAt (n : ℕ) (op : MomentOperation α) (ms ms' : List (Moment α)) : Prop where
  earliest : IsLeast
    {k | ∀ j, ∀ a ∈ ms.getD j [], ¬ Apart MomentOperation.qubits a op → j < k} n
  moment : ms'[n]? = some (ms.getD n [] ++ [op])
  others : ∀ j, j ≠ n → ms'[j]? = ms[j]?

theorem getElem?_addAt (op : MomentOperation α) (h : n ≤ ms.length) :
    (addAt op n ms)[n]? = some (ms.getD n [] ++ [op]) ∧
      ∀ j, j ≠ n → (addAt op n ms)[j]? = ms[j]? := by
  induction ms generalizing n with
  | nil =>
    obtain rfl := Nat.le_zero.1 h
    refine ⟨rfl, fun j hj => ?_⟩
    obtain ⟨j, rfl⟩ := Nat.exists_eq_succ_of_ne_zero hj
    rfl
  | cons m rest ih =>
    cases n with
    | zero =>
      refine ⟨rfl, fun j hj => ?_⟩
      obtain ⟨j, rfl⟩ := Nat.exists_eq_succ_of_ne_zero hj
      rfl
    | succ n =>
      obtain ⟨hmoment, hothers⟩ := ih (Nat.le_of_succ_le_succ h)
      refine ⟨hmoment, fun j hj => ?_⟩
      cases j with
      | zero => rfl
      | succ j => exact hothers j (hj ∘ congrArg Nat.succ)

/-- An operation goes to the first moment after all that it shares a qubit with. -/
theorem addedAt_place (op : MomentOperation α) (ms : List (Moment α)) :
    AddedAt (place op.qubits ms) op ms (addAt op (place op.qubits ms) ms) := by
  have hplace : ∀ k, (∀ j, ∀ a ∈ ms.getD j [], ¬ Apart MomentOperation.qubits a op → j < k) ↔
      place op.qubits ms ≤ k := by
    intro k
    rw [place_le_iff]
    refine forall_congr' fun j => ?_
    rw [touches_eq_false_iff]
    constructor
    · intro hall hj a ha
      by_contra hshared
      exact absurd (hall a ha hshared) (Nat.not_lt.2 hj)
    · intro hall a ha hshared
      by_contra hj
      exact hshared (hall (Nat.le_of_not_lt hj) a ha)
  have hlength : place op.qubits ms ≤ ms.length := place_le_length op.qubits
  obtain ⟨hmoment, hothers⟩ := getElem?_addAt op hlength
  exact ⟨⟨(hplace _).2 le_rfl, fun k hk => (hplace k).1 hk⟩, hmoment, hothers⟩

namespace AddedAt

variable (h : AddedAt n op ms ms')
include h

theorem getD_self : ms'.getD n [] = ms.getD n [] ++ [op] := by
  rw [List.getD_eq_getElem?_getD, h.moment, Option.getD_some]

theorem getD_of_ne {j : ℕ} (hj : j ≠ n) : ms'.getD j [] = ms.getD j [] := by
  rw [List.getD_eq_getElem?_getD, h.others j hj, List.getD_eq_getElem?_getD]

theorem mem_or_eq {m : Moment α} (hm : m ∈ ms') : m ∈ ms ∨ m = ms.getD n [] ++ [op] := by
  obtain ⟨j, hj⟩ := List.mem_iff_getElem?.1 hm
  by_cases hjn : j = n
  · rw [hjn, h.moment] at hj
    exact .inr (Option.some.inj hj).symm
  · rw [h.others j hjn] at hj
    exact .inl (List.mem_of_getElem? hj)

/-- The operation shares no qubit with those in its moment or a later one. -/
theorem apart_of_le {j : ℕ} (hj : n ≤ j) {a : MomentOperation α} (ha : a ∈ ms.getD j []) :
    Apart MomentOperation.qubits a op := by
  by_contra hshared
  exact absurd (h.earliest.1 j a ha hshared) (Nat.not_lt.2 hj)

/-- Operations on disjoint qubits stay so in every moment. -/
theorem pairwise_apart (hms : ∀ m ∈ ms, m.Pairwise (Apart MomentOperation.qubits)) :
    ∀ m ∈ ms', m.Pairwise (Apart MomentOperation.qubits) := by
  intro m hm
  obtain hm | rfl := h.mem_or_eq hm
  · exact hms m hm
  · have hmoment : (ms.getD n []).Pairwise (Apart MomentOperation.qubits) := by
      by_cases hlt : n < ms.length
      · rw [List.getD_eq_getElem _ _ hlt]
        exact hms _ (List.getElem_mem hlt)
      · rw [List.getD_eq_default _ _ (Nat.le_of_not_lt hlt)]
        exact .nil
    refine List.pairwise_append.2 ⟨hmoment, List.pairwise_singleton .., fun a ha b hb => ?_⟩
    obtain rfl := List.mem_singleton.1 hb
    exact h.apart_of_le le_rfl ha

end AddedAt

end Added

/-- An appended operation goes where it has to, and all else stays. -/
theorem addedAt_append {m m' : MomentCircuit α} {op : MomentOperation α}
    (h : m.append op = .ok m') : AddedAt (place op.qubits m.moments) op m.moments m'.moments := by
  obtain ⟨_, -, h⟩ := bind_eq_ok h
  obtain rfl := Except.ok.inj h
  exact addedAt_place op m.moments

/-- On each of its qubits an appended operation comes last. -/
theorem filter_append {m m' : MomentCircuit α} {op : MomentOperation α} (h : m.append op = .ok m')
    {q : Qubit} (hq : q ∈ op.qubits) :
    m'.operations.filter (q ∈ ·.qubits) = m.operations.filter (q ∈ ·.qubits) ++ [op] := by
  obtain ⟨l₁, l₂, hold, hnew, hapart⟩ := (inserted_append h).2
  have hlater : l₂.filter (q ∈ ·.qubits) = [] := by
    refine List.filter_eq_nil_iff.2 fun a ha => ?_
    rw [decide_eq_true_eq]
    exact fun hqa => hapart a ha hqa hq
  rw [hold, hnew, List.filter_append, List.filter_append,
    List.filter_cons_of_pos (by simpa using hq), hlater, List.append_nil]

/-! ### What edits build up -/

/-- No moment is empty, operations of one moment are on different qubits, and each operation shares
a qubit with one in the moment before, so that none could be earlier. -/
structure Packed (ms : List (Moment α)) : Prop where
  nonempty : [] ∉ ms
  apart : ∀ m ∈ ms, m.Pairwise (Apart MomentOperation.qubits)
  linked : ∀ j, ∀ op ∈ ms.getD (j + 1) [], ∃ a ∈ ms.getD j [],
    ¬ Apart MomentOperation.qubits a op

theorem packed_nil : Packed ([] : List (Moment α)) :=
  ⟨List.not_mem_nil, fun _ hm => absurd hm List.not_mem_nil,
    fun _ _ hop => absurd hop List.not_mem_nil⟩

/-- **Adding an operation keeps moments packed.** -/
theorem Packed.added {n : ℕ} {op : MomentOperation α} {ms ms' : List (Moment α)} (hms : Packed ms)
    (h : AddedAt n op ms ms') : Packed ms' := by
  refine ⟨fun hnil => ?_, h.pairwise_apart hms.apart, fun j a ha => ?_⟩
  · obtain hmem | heq := h.mem_or_eq hnil
    · exact hms.nonempty hmem
    · exact List.append_ne_nil_of_right_ne_nil _ (List.cons_ne_nil _ _) heq.symm
  -- what is in the moment before is still there
  have hkept : ∀ b ∈ ms.getD j [], b ∈ ms'.getD j [] := by
    intro b hb
    by_cases hj : j = n
    · rw [hj, h.getD_self]
      exact List.mem_append_left _ (hj ▸ hb)
    · rwa [h.getD_of_ne hj]
  suffices hlinked : ∃ b ∈ ms.getD j [], ¬ Apart MomentOperation.qubits b a by
    obtain ⟨b, hb, hshared⟩ := hlinked
    exact ⟨b, hkept b hb, hshared⟩
  by_cases hn : j + 1 = n
  · rw [hn, h.getD_self] at ha
    obtain ha | ha := List.mem_append.1 ha
    · exact hms.linked j a (hn ▸ ha)
    · obtain rfl := List.mem_singleton.1 ha
      -- without a link the operation would be earlier
      by_contra hnone
      push Not at hnone
      have hle : n ≤ j := h.earliest.2 fun k b hb hshared => by
        have hlt := h.earliest.1 k b hb hshared
        have hne : k ≠ j := fun hkj => hshared (hnone b (hkj ▸ hb))
        omega
      omega
  · rw [h.getD_of_ne hn] at ha
    exact hms.linked j a ha

/-- The circuits that any calls lead to from the empty one, whether the calls succeed or fail. -/
inductive Reachable : MomentCircuit α → Prop
  | empty : Reachable empty
  | edit {c : MomentCircuit α} (h : Reachable c) (edit : Edit α) : Reachable (edit.outcome c).2

theorem Edit.outcome_eq_ok {c c' : MomentCircuit α} {edit : Edit α}
    (h : c.append edit.operation = .ok c') : edit.outcome c = (.ok (), c') := by
  rw [outcome_eq, h]

theorem Edit.outcome_eq_error {c : MomentCircuit α} {edit : Edit α} {e : MomentError}
    (h : c.append edit.operation = .error e) : edit.outcome c = (.error e, c) := by
  rw [outcome_eq, h]

/-- What fails changes nothing. -/
theorem Edit.outcome_of_error {c : MomentCircuit α} {edit : Edit α} {e : MomentError}
    (h : (edit.outcome c).1 = .error e) : (edit.outcome c).2 = c := by
  cases happend : c.append edit.operation with
  | error _ => rw [outcome_eq_error happend]
  | ok c' =>
    rw [outcome_eq_ok happend] at h
    cases h

/-- What succeeds has appended the operation. -/
theorem Edit.append_of_ok {c : MomentCircuit α} {edit : Edit α}
    (h : (edit.outcome c).1 = .ok ()) :
    c.append edit.operation = .ok (edit.outcome c).2 := by
  cases happend : c.append edit.operation with
  | error _ =>
    rw [outcome_eq_error happend] at h
    cases h
  | ok c' => rw [outcome_eq_ok happend]

/-- Only the check of the operation can fail. -/
theorem Edit.outcome_eq_ok_iff (c : MomentCircuit α) (edit : Edit α) :
    (edit.outcome c).1 = .ok () ↔ edit.operation.validate = .ok () := by
  constructor
  · intro h
    exact (inserted_append (append_of_ok h)).1
  · intro hvalid
    have happend : c.append edit.operation =
        .ok ⟨addAt edit.operation (place edit.operation.qubits c.moments) c.moments⟩ := by
      rw [MomentCircuit.append, hvalid]
      rfl
    rw [outcome_eq_ok happend]

/-- What holds of the empty circuit and is kept when an operation is appended holds of all that
edits build up. -/
theorem Reachable.of_append (P : MomentCircuit α → Prop) {m : MomentCircuit α} (h : m.Reachable)
    (hempty : P .empty)
    (happend : ∀ {c c' : MomentCircuit α} {op : MomentOperation α}, P c → c.append op = .ok c' →
      P c') : P m := by
  induction h with
  | empty => exact hempty
  | @edit c _ edit hc =>
    cases hresult : c.append edit.operation with
    | error _ =>
      rw [Edit.outcome_eq_error hresult]
      exact hc
    | ok c' =>
      rw [Edit.outcome_eq_ok hresult]
      exact happend hc hresult

/-- **What edits build up is packed.** -/
theorem Reachable.packed {m : MomentCircuit α} (h : m.Reachable) : Packed m.moments :=
  h.of_append (fun m => Packed m.moments) packed_nil fun hc happend =>
    hc.added (addedAt_append happend)

/-- All operations that edits have appended are valid. -/
theorem Reachable.validate {m : MomentCircuit α} (h : m.Reachable) :
    ∀ op ∈ m.operations, op.validate = .ok () := by
  refine h.of_append (fun m => ∀ op ∈ m.operations, op.validate = .ok ())
    (fun op hop => absurd hop List.not_mem_nil) fun hc happend => ?_
  obtain ⟨hvalid, l₁, l₂, hold, hnew, -⟩ := inserted_append happend
  rw [hold, List.forall_mem_append] at hc
  rw [hnew, List.forall_mem_append, List.forall_mem_cons]
  exact ⟨hc.1, hvalid, hc.2⟩

end MomentCircuit

/-- **Appending keeps structure and order.** On any circuit of moments, an edit succeeds exactly if
its operation is on as many qubits as its gate needs, none of them twice; one that fails changes
nothing. One that succeeds adds the operation at the end of the first moment after all that touch
its qubits, so that on each of its qubits it comes after all operations before, and leaves moments
of operations on disjoint qubits as such. Edits from the empty circuit leave no moment empty, and
each operation after the first moment shares a qubit with one in the moment before. -/
theorem append_keeps_structure {α : Type} :
    (∀ (m : MomentCircuit α) (edit : MomentCircuit.Edit α),
      ((edit.outcome m).1 = .ok () ↔
        (∀ n, edit.operation.gate.qubitCount? = some n → edit.operation.qubits.length = n) ∧
          edit.operation.qubits.Nodup) ∧
      (∀ error, (edit.outcome m).1 = .error error → (edit.outcome m).2 = m) ∧
      ((edit.outcome m).1 = .ok () →
        (∃ n, MomentCircuit.AddedAt n edit.operation m.moments (edit.outcome m).2.moments) ∧
        (∀ q ∈ edit.operation.qubits, (edit.outcome m).2.operations.filter (q ∈ ·.qubits) =
          m.operations.filter (q ∈ ·.qubits) ++ [edit.operation]) ∧
        ((∀ moment ∈ m.moments, moment.Pairwise (Apart MomentOperation.qubits)) →
          ∀ moment ∈ (edit.outcome m).2.moments,
            moment.Pairwise (Apart MomentOperation.qubits)))) ∧
    ∀ m : MomentCircuit α, m.Reachable →
      [] ∉ m.moments ∧
      ∀ j, ∀ op ∈ m.moments.getD (j + 1) [], ∃ a ∈ m.moments.getD j [],
        ∃ q, q ∈ a.qubits ∧ q ∈ op.qubits := by
  refine ⟨fun m edit => ⟨?_, fun error => MomentCircuit.Edit.outcome_of_error, fun h => ?_⟩,
    fun m hm => ⟨hm.packed.nonempty, fun j op hop => ?_⟩⟩
  · rw [MomentCircuit.Edit.outcome_eq_ok_iff, MomentOperation.validate_eq_ok_iff]
  · have happend := MomentCircuit.Edit.append_of_ok h
    have hadded := MomentCircuit.addedAt_append happend
    exact ⟨⟨_, hadded⟩, fun q hq => MomentCircuit.filter_append happend hq, hadded.pairwise_apart⟩
  · obtain ⟨a, ha, hshared⟩ := hm.packed.linked j op hop
    exact ⟨a, ha, not_apart_iff.1 hshared⟩

/-- A measurement of no qubits goes to the first moment, after the gate that is there. -/
theorem append_keeps_structure_measurement :
    ∃ m : MomentCircuit Float, m.Reachable ∧
      m.moments = [[⟨.h, [0]⟩, ⟨.measure "", []⟩], [⟨.cnot, [0, 1]⟩]] ∧
      (∃ a ∈ m.moments.getD 0 [], ∃ q : Qubit, q ∈ a.qubits ∧ q ∈ [0, 1]) ∧
      ((MomentCircuit.Edit.push .x [1]).outcome m).2.operations.filter (1 ∈ ·.qubits) =
        m.operations.filter (1 ∈ ·.qubits) ++ [⟨.x, [1]⟩] ∧
      (∀ moment ∈ ((MomentCircuit.Edit.push .x [1]).outcome m).2.moments,
        moment.Pairwise (Apart MomentOperation.qubits)) ∧
      ((MomentCircuit.Edit.push .cnot [1, 1]).outcome m).2 = m := by
  have hm := ((MomentCircuit.Reachable.empty.edit (α := Float) (.push .h [0])).edit
    (.push .cnot [0, 1])).edit (.append ⟨.measure "", []⟩)
  generalize hcircuit : ((MomentCircuit.Edit.append (α := Float) ⟨.measure "", []⟩).outcome
    ((MomentCircuit.Edit.push .cnot [0, 1]).outcome
      ((MomentCircuit.Edit.push .h [0]).outcome .empty).2).2).2 = m at hm
  have hmoments : m.moments = [[⟨.h, [0]⟩, ⟨.measure "", []⟩], [⟨.cnot, [0, 1]⟩]] := by
    rw [← hcircuit]
    rfl
  have hok : ((MomentCircuit.Edit.push .x [1]).outcome m).1 = .ok () := by
    rw [← hcircuit]
    rfl
  have herror : ((MomentCircuit.Edit.push .cnot [1, 1]).outcome m).1 =
      .error (.duplicateQubit "CNOT" 1) := by
    rw [← hcircuit]
    rfl
  have hcnot : ⟨.cnot, [0, 1]⟩ ∈ m.moments.getD 1 [] := by
    rw [hmoments]
    exact List.mem_singleton.2 rfl
  obtain ⟨hedit, hbuilt⟩ := append_keeps_structure (α := Float)
  obtain ⟨-, hfilter, hapart⟩ := (hedit m (.push .x [1])).2.2 hok
  exact ⟨m, hm, hmoments, (hbuilt m hm).2 0 _ hcnot, hfilter 1 (List.mem_singleton.2 rfl),
    hapart hm.packed.apart, (hedit m (.push .cnot [1, 1])).2.1 _ herror⟩

end CircuitExchange
