import Mathlib
import CircuitExchange.Proofs.Order.NormalForm

/-!
The store of timed gates, edited in place. It is a map: a gate put under a key that is in use takes
the place of the gate there. This never happens, as a gate on the same qubits at the same time
occupies them, and every gate has a qubit to occupy.

* `TimedCircuit.putAt`, `TimedCircuit.putNext`, `TimedCircuit.Edit`: the calls that change a
  circuit, as computations over the circuit they change.
* `TimedCircuit.Edit.outcome_eq`: an edit adds an entry, or fails and changes nothing.
* `TimedCircuit.Consistent`: what all stored entries satisfy together.
* `TimedCircuit.Reachable`: the circuits that edits lead to, and those read from entries.
* `timed_store_invariant`: consistency, the effect of every edit, and when an added gate fails.
-/

namespace CircuitExchange

namespace TimedCircuit

variable {α : Type}

/-! ### Editing in place -/

/-- Entries in the order of their keys, with one put under its own, in the place of the one that
is there. -/
def put (e : TimedEntry α) : List (TimedEntry α) → List (TimedEntry α)
  | [] => [e]
  | a :: rest =>
    if e.before a then e :: a :: rest
    else if e.key = a.key then e :: rest
    else a :: put e rest

/-- A computation that changes a circuit and may fail. What it has changed before it fails stays
changed. -/
abbrev Editing (α β : Type) := ExceptT TimedError (StateM (TimedCircuit α)) β

/-- Puts a gate at a given time, if its entry passes its check and its qubits are free. -/
def putAt (gate : TimedGate α) (qubits : List Qubit) (time : UInt64) : Editing α Unit := do
  MonadExcept.ofExcept (checkEntry ⟨time, qubits, gate⟩)
  if (← get).occupied qubits time then throw (.occupied qubits time)
  else modify fun c => ⟨put ⟨time, qubits, gate⟩ c.entries⟩

/-- Puts a gate at the first time after all gates that share a qubit with it, which it returns. -/
def putNext (gate : TimedGate α) (qubits : List Qubit) : Editing α UInt64 := do
  let time := (← get).freeTime qubits
  putAt gate qubits time
  return time

/-- Puts entries one after the other. -/
def putAll (entries : List (TimedEntry α)) : Editing α Unit :=
  entries.forM fun e => putAt e.gate e.qubits e.time

/-- A call that changes a circuit. -/
inductive Edit (α : Type) where
  | add (gate : TimedGate α) (qubits : List Qubit)
  | addAt (gate : TimedGate α) (qubits : List Qubit) (time : UInt64)
  | h (q : Qubit)
  | cx (control target : Qubit)
  | rx (q : Qubit) (theta : α)
  | ry (q : Qubit) (theta : α)
  | rz (q : Qubit) (theta : α)

namespace Edit

/-- What a call does. It gives the time of the gate. -/
def perform : Edit α → Editing α UInt64
  | add gate qubits => putNext gate qubits
  | addAt gate qubits time => do
    putAt gate qubits time
    return time
  | h q => putNext (.plain .h) [q]
  | cx control target => putNext (.plain .cx) [control, target]
  | rx q theta => putNext (.rotation .rx theta) [q]
  | ry q theta => putNext (.rotation .ry theta) [q]
  | rz q theta => putNext (.rotation .rz theta) [q]

/-- The entry a call asks for. -/
def entry (c : TimedCircuit α) : Edit α → TimedEntry α
  | add gate qubits => ⟨c.freeTime qubits, qubits, gate⟩
  | addAt gate qubits time => ⟨time, qubits, gate⟩
  | h q => ⟨c.freeTime [q], [q], .plain .h⟩
  | cx control target => ⟨c.freeTime [control, target], [control, target], .plain .cx⟩
  | rx q theta => ⟨c.freeTime [q], [q], .rotation .rx theta⟩
  | ry q theta => ⟨c.freeTime [q], [q], .rotation .ry theta⟩
  | rz q theta => ⟨c.freeTime [q], [q], .rotation .rz theta⟩

/-- What a call gives, and the circuit it leaves behind. -/
def outcome (edit : Edit α) (c : TimedCircuit α) : Except TimedError UInt64 × TimedCircuit α :=
  edit.perform.run.run c

end Edit

theorem put_eq_insert {e : TimedEntry α} {entries : List (TimedEntry α)}
    (h : ∀ a ∈ entries, e.key ≠ a.key) : put e entries = insert e entries := by
  induction entries with
  | nil => rfl
  | cons a rest ih =>
    obtain ⟨ha, hrest⟩ := List.forall_mem_cons.1 h
    rw [put, insert, if_neg ha, ih hrest]

/-- An entry that is added has a key that is not in use. -/
theorem key_ne_of_addEntry {c c' : TimedCircuit α} {e : TimedEntry α} (h : c.addEntry e = .ok c') :
    ∀ a ∈ c.entries, e.key ≠ a.key := by
  obtain ⟨hcheck, hfree, -⟩ := addEntry_eq_ok_iff.1 h
  have hne := ne_nil_of_length_eq (checkEntry_eq_ok_iff.1 hcheck).2.1
  intro a ha hkey
  obtain ⟨htime, hqubits⟩ := Prod.mk.inj hkey
  exact qubits_ne_of_not_occupied hne hfree ha htime hqubits

/-! ### The effect of an edit -/

/-- A computation over the circuit it changes, from one that gives the changed circuit: what fails
leaves the circuit as it was. -/
def inPlace {β : Type} (c : TimedCircuit α) :
    Except TimedError (β × TimedCircuit α) → Except TimedError β × TimedCircuit α
  | .ok (b, c') => (.ok b, c')
  | .error e => (.error e, c)

/-- **Putting a gate at a time adds its entry**, and fails as adding it does. -/
theorem run_putAt (c : TimedCircuit α) (e : TimedEntry α) :
    (putAt e.gate e.qubits e.time).run.run c = c.inPlace ((c.addEntry e).map ((), ·)) := by
  rw [putAt]
  cases hcheck : checkEntry e with
  | error error =>
    rw [addEntry, hcheck]
    rfl
  | ok _ =>
    change (if c.occupied e.qubits e.time then throw (.occupied e.qubits e.time)
      else modify fun c => ⟨put e c.entries⟩ : Editing α Unit).run.run c = _
    cases hfree : c.occupied e.qubits e.time with
    | true =>
      rw [addEntry, hcheck, hfree]
      rfl
    | false =>
      have hadd : c.addEntry e = .ok ⟨insert e c.entries⟩ :=
        addEntry_eq_ok_iff.2 ⟨hcheck, hfree, rfl⟩
      rw [hadd, ← put_eq_insert (key_ne_of_addEntry hadd)]
      rfl

/-- **An edit adds the entry it asks for**, or fails and leaves the circuit as it was. -/
theorem Edit.outcome_eq (edit : Edit α) (c : TimedCircuit α) :
    edit.outcome c = c.inPlace ((c.addEntry (edit.entry c)).map ((edit.entry c).time, ·)) := by
  have hreturn : ∀ e : TimedEntry α,
      (putAt e.gate e.qubits e.time >>= fun _ => pure e.time : Editing α UInt64).run.run c =
        c.inPlace ((c.addEntry e).map (e.time, ·)) := by
    intro e
    rw [run_bind, run_putAt]
    cases c.addEntry e <;> rfl
  have hnext : ∀ (gate : TimedGate α) (qubits : List Qubit),
      (putNext gate qubits).run.run c =
        c.inPlace ((c.addEntry ⟨c.freeTime qubits, qubits, gate⟩).map (c.freeTime qubits, ·)) := by
    intro gate qubits
    rw [putNext, run_bind]
    exact hreturn ⟨c.freeTime qubits, qubits, gate⟩
  cases edit with
  | addAt gate qubits time => exact hreturn ⟨time, qubits, gate⟩
  | add gate qubits => exact hnext gate qubits
  | h q => exact hnext (.plain .h) [q]
  | cx control target => exact hnext (.plain .cx) [control, target]
  | rx q theta => exact hnext (.rotation .rx theta) [q]
  | ry q theta => exact hnext (.rotation .ry theta) [q]
  | rz q theta => exact hnext (.rotation .rz theta) [q]

theorem run_putAll_eq_ok_iff {c c' : TimedCircuit α} {entries : List (TimedEntry α)} :
    (putAll entries).run.run c = (.ok (), c') ↔ entries.foldlM addEntry c = .ok c' := by
  induction entries generalizing c with
  | nil =>
    constructor
    · intro h
      exact congrArg Except.ok (Prod.mk.inj h).2
    · intro h
      exact congrArg (Except.ok (), ·) (Except.ok.inj h)
  | cons e entries ih =>
    change (putAt e.gate e.qubits e.time >>= fun _ => putAll entries).run.run c = _ ↔ _
    rw [run_bind, run_putAt, List.foldlM_cons]
    cases c.addEntry e with
    | error error => exact ⟨nofun, nofun⟩
    | ok c₁ => exact ih

/-! ### Consistent circuits -/

/-- The entry shares a qubit with others. -/
theorem touches_iff {e : TimedEntry α} {qubits : List Qubit} :
    e.touches qubits ↔ ∃ q ∈ qubits, q ∈ e.qubits := by
  simp [TimedEntry.touches, and_comm]

/-- Every gate is on as many qubits as it needs, none of them twice, and gates at the same time are
on different qubits. -/
structure Consistent (c : TimedCircuit α) : Prop extends c.Scheduled where
  qubitCount : ∀ e ∈ c.entries, e.qubits.length = e.gate.name.qubitCount
  nodup : ∀ e ∈ c.entries, e.qubits.Nodup
  apart : c.entries.Pairwise fun e e' => e.time = e'.time → e.qubits.Disjoint e'.qubits

theorem consistent_empty : (empty : TimedCircuit α).Consistent :=
  ⟨scheduled_empty, by simp [empty], by simp [empty], .nil⟩

/-- **Adding an entry keeps a circuit consistent.** -/
theorem Consistent.addEntry {c c' : TimedCircuit α} {e : TimedEntry α} (hc : c.Consistent)
    (h : c.addEntry e = .ok c') : c'.Consistent := by
  have hscheduled := scheduled_addEntry hc.toScheduled h
  obtain ⟨hcheck, hfree, rfl⟩ := addEntry_eq_ok_iff.1 h
  obtain ⟨-, hcount, hnodup⟩ := checkEntry_eq_ok_iff.1 hcheck
  refine ⟨hscheduled, fun a ha => ?_, fun a ha => ?_, ?_⟩
  · rcases mem_insert.1 ha with rfl | ha
    · exact hcount
    · exact hc.qubitCount a ha
  · rcases mem_insert.1 ha with rfl | ha
    · exact hnodup
    · exact hc.nodup a ha
  · refine ((insert_perm e c.entries).pairwise_iff fun h htime => (h htime.symm).symm).2 ?_
    refine List.pairwise_cons.2 ⟨fun a ha htime => ?_, hc.apart⟩
    exact (not_occupied_iff.1 hfree a ha htime.symm).symm

/-- The circuits that any calls lead to from the empty one or from one that is read from entries,
whether the calls succeed or fail. -/
inductive Reachable : TimedCircuit α → Prop
  | empty : Reachable empty
  | read {entries : List (TimedEntry α)} {c : TimedCircuit α}
      (h : (putAll entries).run.run empty = (.ok (), c)) : Reachable c
  | edit {c : TimedCircuit α} (h : Reachable c) (edit : Edit α) : Reachable (edit.outcome c).2

theorem consistent_of_ofEntries {entries : List (TimedEntry α)} {c : TimedCircuit α}
    (h : ofEntries entries = .ok c) : c.Consistent := by
  have hfold : ∀ c₀ : TimedCircuit α, c₀.Consistent → entries.foldlM addEntry c₀ = .ok c →
      c.Consistent := by
    clear h
    induction entries with
    | nil =>
      intro c₀ hc₀ h
      obtain rfl := Except.ok.inj h
      exact hc₀
    | cons e entries ih =>
      intro c₀ hc₀ h
      rw [List.foldlM_cons] at h
      obtain ⟨c₁, hc₁, h⟩ := bind_eq_ok h
      exact ih c₁ (hc₀.addEntry hc₁) h
  exact hfold _ consistent_empty h

/-- **Every reachable circuit is consistent.** -/
theorem Reachable.consistent {c : TimedCircuit α} (h : c.Reachable) : c.Consistent := by
  induction h with
  | empty => exact consistent_empty
  | read h => exact consistent_of_ofEntries (run_putAll_eq_ok_iff.1 h)
  | @edit c _ edit hc =>
    rw [Edit.outcome_eq]
    cases hadd : c.addEntry (edit.entry c) with
    | ok c' => exact hc.addEntry hadd
    | error _ => exact hc

/-! ### When gates are added -/

theorem ne_lastTime_iff {time : UInt64} :
    time ≠ nextTime.lastTime ↔ time.toNat < 2 ^ 64 - 1 := by
  have hlt := time.toNat_lt
  rw [ne_eq, ← UInt64.toNat_inj]
  change time.toNat ≠ 2 ^ 64 - 1 ↔ _
  omega

/-- There is a free time unless a gate in the way is at the last time that a gate can be at. -/
theorem freeTime_ne_lastTime_iff {c : TimedCircuit α} (hc : c.Scheduled) {qubits : List Qubit} :
    c.freeTime qubits ≠ nextTime.lastTime ↔
      ∀ e ∈ c.entries, e.touches qubits → e.time.toNat + 1 < 2 ^ 64 - 1 := by
  have hle : ∀ time : UInt64, time ≠ nextTime.lastTime ↔ time ≤ nextTime.lastTime - 1 := by
    intro time
    rw [ne_lastTime_iff, UInt64.le_iff_toNat_le]
    change _ ↔ time.toNat ≤ 2 ^ 64 - 2
    omega
  rw [hle, freeTime, foldl_max_le_iff UInt64.max_def, and_iff_right UInt64.zero_le]
  simp only [List.mem_filter, and_imp]
  refine forall₂_congr fun e he => imp_congr_right fun _ => ?_
  rw [UInt64.le_iff_toNat_le, toNat_nextTime (hc.inTime e he)]
  change e.time.toNat + 1 ≤ 2 ^ 64 - 2 ↔ _
  omega

/-- **A gate is added** exactly if it is on as many qubits as it needs, none of them twice, and no
gate in the way is at the last time that a gate can be at. -/
theorem exists_addEntry_freeTime_iff {c : TimedCircuit α} (hc : c.Scheduled) {gate : TimedGate α}
    {qubits : List Qubit} :
    (∃ c', c.addEntry ⟨c.freeTime qubits, qubits, gate⟩ = .ok c') ↔
      qubits.length = gate.name.qubitCount ∧ qubits.Nodup ∧
        ∀ e ∈ c.entries, e.touches qubits → e.time.toNat + 1 < 2 ^ 64 - 1 := by
  rw [← freeTime_ne_lastTime_iff hc]
  constructor
  · rintro ⟨c', h⟩
    obtain ⟨htime, hcount, hnodup⟩ := checkEntry_eq_ok_iff.1 (addEntry_eq_ok_iff.1 h).1
    exact ⟨hcount, hnodup, htime⟩
  · rintro ⟨hcount, hnodup, htime⟩
    exact ⟨_, addEntry_eq_ok_iff.2
      ⟨checkEntry_eq_ok_iff.2 ⟨htime, hcount, hnodup⟩, not_occupied_freeTime hc qubits, rfl⟩⟩

/-! ### What an edit leaves behind -/

namespace Edit

variable {c : TimedCircuit α} {edit : Edit α}

theorem outcome_eq_ok {c' : TimedCircuit α} (h : c.addEntry (edit.entry c) = .ok c') :
    edit.outcome c = (.ok (edit.entry c).time, c') := by
  rw [outcome_eq, h]
  rfl

theorem outcome_eq_error {e : TimedError} (h : c.addEntry (edit.entry c) = .error e) :
    edit.outcome c = (.error e, c) := by
  rw [outcome_eq, h]
  rfl

/-- **What fails changes nothing.** -/
theorem outcome_of_error {e : TimedError} (h : (edit.outcome c).1 = .error e) :
    (edit.outcome c).2 = c := by
  cases hadd : c.addEntry (edit.entry c) with
  | error _ => rw [outcome_eq_error hadd]
  | ok c' =>
    rw [outcome_eq_ok hadd] at h
    cases h

/-- What succeeds has added the entry. -/
theorem addEntry_of_ok {time : UInt64} (h : (edit.outcome c).1 = .ok time) :
    c.addEntry (edit.entry c) = .ok (edit.outcome c).2 ∧ (edit.entry c).time = time := by
  cases hadd : c.addEntry (edit.entry c) with
  | error _ =>
    rw [outcome_eq_error hadd] at h
    cases h
  | ok c' =>
    rw [outcome_eq_ok hadd] at h ⊢
    exact ⟨rfl, Except.ok.inj h⟩

/-- **What succeeds adds one entry** and keeps all others, in their order. -/
theorem exists_entries_of_ok (hc : c.Scheduled) {time : UInt64}
    (h : (edit.outcome c).1 = .ok time) :
    ∃ earlier later, c.entries = earlier ++ later ∧
      (edit.outcome c).2.entries = earlier ++ edit.entry c :: later := by
  obtain ⟨-, -, heq⟩ := addEntry_eq_ok_iff.1 (addEntry_of_ok h).1
  have hinserted : Inserted (fun _ _ => True) (edit.entry c) c.entries (insert _ c.entries) :=
    inserted_insert hc.sorted fun _ _ _ => trivial
  obtain ⟨earlier, later, hold, hnew, -⟩ := hinserted
  exact ⟨earlier, later, hold, heq ▸ hnew⟩

end Edit

end TimedCircuit

/-- **The store of timed gates.** In every reachable circuit each gate is on as many distinct qubits
as it needs, at a time that has a next one, and gates at the same time share no qubit. An edit
that succeeds adds the entry it asks for and keeps all others, and one that fails changes nothing.
A gate is added later than all gates that share a qubit with it; this fails for its qubits alone, or
if one of those gates is at the last time that a gate can be at. -/
theorem timed_store_invariant {α : Type} {c : TimedCircuit α} (h : c.Reachable) :
    (∀ e ∈ c.entries, e.qubits.length = e.gate.name.qubitCount ∧ e.qubits.Nodup ∧
      e.time.toNat < 2 ^ 64 - 1) ∧
    (c.entries.Pairwise fun e e' => e.time = e'.time → e.qubits.Disjoint e'.qubits) ∧
    (∀ edit : TimedCircuit.Edit α,
      (∀ time, (edit.outcome c).1 = .ok time → (edit.entry c).time = time ∧
        ∃ earlier later, c.entries = earlier ++ later ∧
          (edit.outcome c).2.entries = earlier ++ edit.entry c :: later) ∧
      ∀ error, (edit.outcome c).1 = .error error → (edit.outcome c).2 = c) ∧
    ∀ (gate : TimedGate α) (qubits : List Qubit),
      (∀ time, ((TimedCircuit.Edit.add gate qubits).outcome c).1 = .ok time →
        ∀ e ∈ c.entries, (∃ q ∈ qubits, q ∈ e.qubits) → e.time < time) ∧
      ∀ error, ((TimedCircuit.Edit.add gate qubits).outcome c).1 = .error error →
        qubits.length ≠ gate.name.qubitCount ∨ ¬ qubits.Nodup ∨
          ∃ e ∈ c.entries, (∃ q ∈ qubits, q ∈ e.qubits) ∧ e.time.toNat + 1 = 2 ^ 64 - 1 := by
  have hc := h.consistent
  have hlast : ∀ e ∈ c.entries, e.time.toNat < 2 ^ 64 - 1 := fun e he =>
    TimedCircuit.ne_lastTime_iff.1 (hc.inTime e he)
  refine ⟨fun e he => ⟨hc.qubitCount e he, hc.nodup e he, hlast e he⟩, hc.apart,
    fun edit => ⟨fun time htime => ?_, fun error => TimedCircuit.Edit.outcome_of_error⟩,
    fun gate qubits => ⟨fun time htime e he hshared => ?_, fun error herror => ?_⟩⟩
  · exact ⟨(TimedCircuit.Edit.addEntry_of_ok htime).2,
      TimedCircuit.Edit.exists_entries_of_ok hc.toScheduled htime⟩
  · rw [← (TimedCircuit.Edit.addEntry_of_ok htime).2]
    exact TimedCircuit.lt_freeTime hc.toScheduled he (TimedCircuit.touches_iff.2 hshared)
  · by_contra hcon
    push Not at hcon
    obtain ⟨hcount, hnodup, htime⟩ := hcon
    have hfree : ∀ e ∈ c.entries, e.touches qubits → e.time.toNat + 1 < 2 ^ 64 - 1 := by
      intro e he htouches
      have hlt := hlast e he
      have hne := htime e he (TimedCircuit.touches_iff.1 htouches)
      omega
    obtain ⟨c', hadd⟩ := (TimedCircuit.exists_addEntry_freeTime_iff hc.toScheduled).2
      ⟨hcount, hnodup, hfree⟩
    rw [TimedCircuit.Edit.outcome_eq_ok hadd] at herror
    cases herror

/-- A gate at the last time but one leaves room for one more. -/
theorem timed_store_invariant_last_time :
    ∃ c : TimedCircuit Float, c.Reachable ∧
      c.entries = [⟨0xfffffffffffffffd, [0], .plain .h⟩, ⟨0xfffffffffffffffe, [0, 1], .plain .cx⟩] ∧
      ((TimedCircuit.Edit.add (.plain .x) [1]).outcome c).1 =
        .error (.timeOutOfRange nextTime.lastTime) ∧
      ∃ e ∈ c.entries, (∃ q ∈ [1], q ∈ e.qubits) ∧ e.time.toNat + 1 = 2 ^ 64 - 1 := by
  have hplaced := TimedCircuit.Reachable.empty.edit (α := Float)
    (.addAt (.plain .h) [0] 0xfffffffffffffffd)
  have hnext := hplaced.edit (.cx 0 1)
  generalize hc : ((TimedCircuit.Edit.cx (α := Float) 0 1).outcome
    ((TimedCircuit.Edit.addAt (.plain .h) [0] 0xfffffffffffffffd).outcome .empty).2).2 = c at hnext
  have herror : ((TimedCircuit.Edit.add (.plain .x) [1]).outcome c).1 =
      .error (.timeOutOfRange nextTime.lastTime) := by
    rw [← hc]
    decide +kernel
  have hentries : c.entries = [⟨0xfffffffffffffffd, [0], .plain .h⟩,
      ⟨0xfffffffffffffffe, [0, 1], .plain .cx⟩] := by
    rw [← hc]
    decide +kernel
  have hfails := ((timed_store_invariant hnext).2.2.2 (.plain .x) [1]).2 _ herror
  rcases hfails with hcount | hnodup | hlast
  · exact absurd rfl hcount
  · exact absurd (List.nodup_singleton 1) hnodup
  · exact ⟨c, hnext, hentries, herror, hlast⟩

end CircuitExchange
