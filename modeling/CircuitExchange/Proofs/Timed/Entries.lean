import Mathlib
import CircuitExchange.Proofs.Timed.Store

/-!
Lists of timed entries. They are put together one after the other, and each is checked against those
before it; still, only the entries themselves decide, whatever order they come in: they fit together
if each of them passes its check and no two of them use a qubit at the same time.

* `TimedEntry.Compatible`: two entries that can be in one circuit.
* `TimedCircuit.exists_foldlM_addEntry_iff`: which entries can be added.
* `TimedCircuit.perm_of_ofEntries`, `TimedCircuit.toOption_ofEntries_of_perm`: all entries are kept,
  and their order does not matter.
* `TimedCircuit.Consistent.ofEntries_entries`: a circuit is what its entries are put together to.
* `timed_entries_order_free`: what lists of entries are read as.
-/

namespace CircuitExchange

/-- The two are at different times, or on different qubits. -/
def TimedEntry.Compatible {α : Type} (e e' : TimedEntry α) : Prop :=
  e.time = e'.time → e.qubits.Disjoint e'.qubits

theorem TimedEntry.Compatible.symm {α : Type} {e e' : TimedEntry α} (h : e.Compatible e') :
    e'.Compatible e := fun htime => (h htime.symm).symm

namespace TimedCircuit

variable {α : Type} {c c' : TimedCircuit α} {es es' : List (TimedEntry α)}

theorem exists_addEntry_iff {e : TimedEntry α} :
    (∃ c', c.addEntry e = .ok c') ↔
      checkEntry e = .ok () ∧ ∀ a ∈ c.entries, a.Compatible e := by
  simp only [addEntry_eq_ok_iff, not_occupied_iff]
  constructor
  · rintro ⟨_, hcheck, hfree, -⟩
    exact ⟨hcheck, hfree⟩
  · rintro ⟨hcheck, hfree⟩
    exact ⟨_, hcheck, hfree, rfl⟩

/-- **Entries are added** exactly if each passes its check and any two, of them and of those that
are there, can be together. -/
theorem exists_foldlM_addEntry_iff :
    (∃ c', es.foldlM addEntry c = .ok c') ↔
      (∀ e ∈ es, checkEntry e = .ok ()) ∧ es.Pairwise TimedEntry.Compatible ∧
        ∀ a ∈ c.entries, ∀ e ∈ es, a.Compatible e := by
  induction es generalizing c with
  | nil => exact iff_of_true ⟨c, rfl⟩ ⟨nofun, .nil, fun _ _ => nofun⟩
  | cons e es ih =>
    -- the first entry is added, and then it is one of those that are there
    have hstep : (∃ c', (e :: es).foldlM addEntry c = .ok c') ↔
        (checkEntry e = .ok () ∧ ∀ a ∈ c.entries, a.Compatible e) ∧
          ∃ c', es.foldlM addEntry ⟨insert e c.entries⟩ = .ok c' := by
      rw [← exists_addEntry_iff]
      constructor
      · rintro ⟨c', h⟩
        rw [List.foldlM_cons] at h
        obtain ⟨c₁, hadd, h⟩ := bind_eq_ok h
        obtain ⟨-, -, rfl⟩ := addEntry_eq_ok_iff.1 hadd
        exact ⟨⟨_, hadd⟩, c', h⟩
      · rintro ⟨⟨c₁, hadd⟩, c', h⟩
        obtain ⟨-, -, rfl⟩ := addEntry_eq_ok_iff.1 hadd
        exact ⟨c', by rw [List.foldlM_cons, hadd]; exact h⟩
    simp only [hstep, ih, mem_insert, forall_eq_or_imp, List.forall_mem_cons, List.pairwise_cons,
      forall_and]
    tauto

/-- No entry is lost. -/
theorem perm_of_foldlM (h : es.foldlM addEntry c = .ok c') : c'.entries.Perm (c.entries ++ es) := by
  induction es generalizing c with
  | nil =>
    obtain rfl := Except.ok.inj h
    rw [List.append_nil]
  | cons e es ih =>
    rw [List.foldlM_cons] at h
    obtain ⟨c₁, hadd, h⟩ := bind_eq_ok h
    obtain ⟨-, -, rfl⟩ := addEntry_eq_ok_iff.1 hadd
    exact (ih h).trans (((insert_perm e c.entries).append_right es).trans List.perm_middle.symm)

theorem exists_ofEntries_iff :
    (∃ c, ofEntries es = .ok c) ↔
      (∀ e ∈ es, checkEntry e = .ok ()) ∧ es.Pairwise TimedEntry.Compatible := by
  rw [ofEntries, exists_foldlM_addEntry_iff]
  exact and_congr_right fun _ => and_iff_left nofun

theorem perm_of_ofEntries (h : ofEntries es = .ok c) : c.entries.Perm es := perm_of_foldlM h

/-- Circuits of the same entries are the same. -/
theorem Scheduled.eq_of_perm (hc : c.Scheduled) (hc' : c'.Scheduled)
    (h : c.entries.Perm c'.entries) : c = c' := by
  refine congrArg TimedCircuit.mk (h.eq_of_pairwise (fun e e' _ _ hbefore hafter => ?_)
    hc.sorted hc'.sorted)
  exact absurd hafter (TimedEntry.not_before_of_before hbefore)

/-- **A consistent circuit is what its entries are put together to.** -/
theorem Consistent.ofEntries_entries (hc : c.Consistent) : ofEntries c.entries = .ok c := by
  have hcheck : ∀ e ∈ c.entries, checkEntry e = .ok () := fun e he =>
    checkEntry_eq_ok_iff.2 ⟨hc.inTime e he, hc.qubitCount e he, hc.nodup e he⟩
  obtain ⟨c', h⟩ := exists_ofEntries_iff.2 ⟨hcheck, hc.apart⟩
  rw [h, (consistent_of_ofEntries h).toScheduled.eq_of_perm hc.toScheduled (perm_of_ofEntries h)]

/-- **The order of entries does not matter**, neither for whether they fit together nor for the
circuit. -/
theorem toOption_ofEntries_of_perm (h : es.Perm es') :
    (ofEntries es).toOption = (ofEntries es').toOption := by
  have hiff : (∃ c, ofEntries es = .ok c) ↔ ∃ c, ofEntries es' = .ok c := by
    rw [exists_ofEntries_iff, exists_ofEntries_iff, h.pairwise_iff TimedEntry.Compatible.symm]
    exact and_congr_left fun _ => forall_congr' fun e => imp_congr_left h.mem_iff
  cases hes : ofEntries es with
  | ok c =>
    obtain ⟨c', hes'⟩ := hiff.1 ⟨c, hes⟩
    have hperm := (perm_of_ofEntries hes).trans (h.trans (perm_of_ofEntries hes').symm)
    rw [hes', (consistent_of_ofEntries hes).toScheduled.eq_of_perm
      (consistent_of_ofEntries hes').toScheduled hperm]
  | error _ =>
    cases hes' : ofEntries es' with
    | ok c' =>
      obtain ⟨c, hc⟩ := hiff.2 ⟨c', hes'⟩
      rw [hes] at hc
      cases hc
    | error _ => rfl

end TimedCircuit

/-- **Lists of timed entries are read whatever their order.** They are accepted exactly if each
entry is at a time that has a next one, on as many qubits as its gate needs, none of them twice, and
entries at the same time are on different qubits. So a permutation is accepted as well, as the same
circuit. The entries of the circuit are those of the list, sorted by time and qubits; and the
entries of any reachable circuit are read as that circuit. -/
theorem timed_entries_order_free {α : Type} :
    (∀ es : List (TimedEntry α), (∃ c, TimedCircuit.ofEntries es = .ok c) ↔
      (∀ e ∈ es, e.time.toNat < 2 ^ 64 - 1 ∧ e.qubits.length = e.gate.name.qubitCount ∧
        e.qubits.Nodup) ∧
      es.Pairwise fun e e' => e.time = e'.time → e.qubits.Disjoint e'.qubits) ∧
    (∀ es es' : List (TimedEntry α), es.Perm es' →
      (TimedCircuit.ofEntries es).toOption = (TimedCircuit.ofEntries es').toOption) ∧
    (∀ (es : List (TimedEntry α)) (c : TimedCircuit α), TimedCircuit.ofEntries es = .ok c →
      c.entries.Perm es ∧ c.entries.Pairwise fun e e' =>
        e.time < e'.time ∨ e.time = e'.time ∧ e.qubits < e'.qubits) ∧
    ∀ c : TimedCircuit α, c.Reachable → TimedCircuit.ofEntries c.entries = .ok c := by
  refine ⟨fun es => ?_, fun _ _ => TimedCircuit.toOption_ofEntries_of_perm, fun es c h => ⟨?_, ?_⟩,
    fun c hc => hc.consistent.ofEntries_entries⟩
  · rw [TimedCircuit.exists_ofEntries_iff]
    refine and_congr_left fun _ => forall₂_congr fun e _ => ?_
    rw [TimedCircuit.checkEntry_eq_ok_iff, TimedCircuit.ne_lastTime_iff]
  · exact TimedCircuit.perm_of_ofEntries h
  · exact (TimedCircuit.consistent_of_ofEntries h).sorted.imp fun hbefore =>
      TimedEntry.before_iff.1 hbefore

/-- Two entries in the other order, and two that share a qubit at one time under different keys. -/
theorem timed_entries_order_free_two :
    (∃ c : TimedCircuit Float,
      TimedCircuit.ofEntries [⟨1, [0], .plain .h⟩, ⟨0, [1, 0], .plain .cx⟩] = .ok c ∧
      (TimedCircuit.ofEntries [⟨0, [1, 0], .plain .cx⟩, ⟨1, [0], .plain .h⟩]).toOption = some c ∧
      c.entries.Perm [⟨1, [0], .plain .h⟩, ⟨0, [1, 0], .plain .cx⟩] ∧
      TimedCircuit.ofEntries c.entries = .ok c) ∧
    ¬ ∃ c : TimedCircuit Float,
      TimedCircuit.ofEntries [⟨0, [1], .plain .h⟩, ⟨0, [1, 0], .plain .cx⟩] = .ok c := by
  obtain ⟨haccepted, hreordered, hsorted, hreachable⟩ := timed_entries_order_free (α := Float)
  constructor
  · have hread : TimedCircuit.ofEntries (α := Float)
        [⟨1, [0], .plain .h⟩, ⟨0, [1, 0], .plain .cx⟩] =
          .ok ⟨[⟨0, [1, 0], .plain .cx⟩, ⟨1, [0], .plain .h⟩]⟩ := by decide +kernel
    have hbuilt := (TimedCircuit.Reachable.empty.edit (α := Float) (.cx 1 0)).edit (.h 0)
    refine ⟨_, hread, ?_, (hsorted _ _ hread).1, hreachable _ hbuilt⟩
    rw [← hreordered _ _ (List.Perm.swap ..), hread]
    rfl
  · intro hclash
    have hapart := List.rel_of_pairwise_cons ((haccepted _).1 hclash).2 (List.mem_singleton_self _)
    exact hapart rfl (List.mem_singleton_self 1) (List.mem_cons_self ..)

end CircuitExchange
