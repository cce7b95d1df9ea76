import Mathlib
import CircuitExchange.Proofs.Decimal.Double
import CircuitExchange.Proofs.Order.Earliest
import CircuitExchange.Proofs.Timed.Entries

/-!
A circuit of timed gates that is exported and imported again is compacted: its gates are added in
their order, each at the first free time. No gate gets later, as the gates before it that share a
qubit with it have not got later either, so the times do not run out. In a compacted circuit every
gate follows one at the time before, and then adding the gates again moves none of them.

* `TimedCircuit.compacted`: all entries, each at the first time after those it shares a qubit with.
* `TimedCircuit.Compacts`: what compaction has made of entries, and keeps with one more.
* `TimedCircuit.Tight`: circuits in which no gate alone could be earlier.
* `TimedCircuit.Tight.compacted_eq`: these are not changed by compaction.
* `TimedEntry.exists_record`: what an entry is exported as, and read back as.
* `timed_round_trip_compacts`: the circuit that comes back.
-/

namespace CircuitExchange

/-! ### Entries that share a qubit -/

namespace TimedEntry

variable {α : Type} {e e' : TimedEntry α}

/-- If the two share a qubit, the first is earlier. -/
def InOrder (e e' : TimedEntry α) : Prop := ¬ Apart qubits e e' → e.time < e'.time

/-- The second is the first one, at the same time or an earlier one. -/
structure MovedTo (e e' : TimedEntry α) : Prop where
  gate : e'.gate = e.gate
  qubits : e'.qubits = e.qubits
  time : e'.time ≤ e.time

theorem touches_iff_not_apart : e.touches e'.qubits ↔ ¬ Apart TimedEntry.qubits e e' := by
  rw [TimedCircuit.touches_iff, not_apart_iff]
  exact exists_congr fun q => And.comm

end TimedEntry

namespace TimedCircuit

variable {α : Type} {c t : TimedCircuit α} {e : TimedEntry α} {es : List (TimedEntry α)} {n : ℕ}

/-- The first free time is after the entries that share a qubit, and no later. -/
theorem freeTime_le_iff (hc : c.Scheduled) :
    (c.freeTime e.qubits).toNat ≤ n ↔
      ∀ a ∈ c.entries, ¬ Apart TimedEntry.qubits a e → a.time.toNat < n := by
  simp only [toNat_freeTime_le_iff hc, TimedEntry.touches_iff_not_apart]

/-- The entries of a consistent circuit that share a qubit stand in the order of their times. -/
theorem Consistent.inOrder (hc : c.Consistent) : c.entries.Pairwise TimedEntry.InOrder := by
  refine (List.Pairwise.and hc.sorted hc.apart).imp fun ⟨hbefore, hapart⟩ hshared => ?_
  exact Std.lt_of_le_of_ne (TimedEntry.time_le_of_before hbefore) fun htime =>
    hshared (hapart htime)

/-! ### Compaction -/

/-- The entry at the first free time. -/
def settled (c : TimedCircuit α) (e : TimedEntry α) : TimedEntry α :=
  { e with time := c.freeTime e.qubits }

/-- The circuit with the entry added at the first free time. -/
def settle (c : TimedCircuit α) (e : TimedEntry α) : TimedCircuit α :=
  ⟨insert (c.settled e) c.entries⟩

/-- The circuit with all entries added again in their order, each at the first free time. -/
def compacted (t : TimedCircuit α) : TimedCircuit α := t.entries.foldl settle empty

/-- Every gate that is not at the first time shares a qubit with one at the time before. -/
def Tight (c : TimedCircuit α) : Prop :=
  ∀ e ∈ c.entries, ∀ n, e.time.toNat = n + 1 →
    ∃ a ∈ c.entries, a.time.toNat = n ∧ ¬ Apart TimedEntry.qubits a e

theorem tight_empty : (empty : TimedCircuit α).Tight := fun _ he => absurd he List.not_mem_nil

/-- **Adding at the first free time keeps a circuit tight.** -/
theorem tight_settle (h : c.Tight) (hc : c.Scheduled) (e : TimedEntry α) : (c.settle e).Tight := by
  intro b hb n hn
  have hlinked : ∃ a ∈ c.entries, a.time.toNat = n ∧ ¬ Apart TimedEntry.qubits a b := by
    rcases mem_insert.1 hb with rfl | hb
    · -- otherwise the time before would be free
      by_contra hnone
      push Not at hnone
      have hlater := (freeTime_le_iff hc).1 (Nat.le_of_eq hn)
      have hle : (c.freeTime e.qubits).toNat ≤ n := by
        refine (freeTime_le_iff hc).2 fun a ha hshared => ?_
        have hlt := hlater a ha hshared
        have hne : a.time.toNat ≠ n := fun heq => hshared (hnone a ha heq)
        omega
      have hfree : (c.freeTime e.qubits).toNat = n + 1 := hn
      omega
    · exact h b hb n hn
  obtain ⟨a, ha, htime, hshared⟩ := hlinked
  exact ⟨a, mem_insert.2 (.inr ha), htime, hshared⟩

/-- An entry that passes its check is added at the first free time, if there is one. -/
theorem addEntry_settled (hc : c.Scheduled) (hcheck : checkEntry e = .ok ())
    (hfree : c.freeTime e.qubits ≠ nextTime.lastTime) :
    c.addEntry (c.settled e) = .ok (c.settle e) := by
  obtain ⟨-, hcount, hnodup⟩ := checkEntry_eq_ok_iff.1 hcheck
  exact addEntry_eq_ok_iff.2 ⟨checkEntry_eq_ok_iff.2 ⟨hfree, hcount, hnodup⟩,
    not_occupied_freeTime hc e.qubits, rfl⟩

/-- The circuit holds the entries, none of them later than it was, those that share a qubit in
their order, and none of them could be earlier. -/
structure Compacts (es : List (TimedEntry α)) (c : TimedCircuit α) : Prop where
  consistent : c.Consistent
  tight : c.Tight
  moved : ∃ moved, c.entries.Perm moved ∧ List.Forall₂ TimedEntry.MovedTo es moved ∧
    moved.Pairwise TimedEntry.InOrder

theorem compacts_empty : Compacts [] (empty : TimedCircuit α) :=
  ⟨consistent_empty, tight_empty, [], .refl _, .nil, .nil⟩

namespace Compacts

variable (h : Compacts es c) (horder : ∀ a ∈ es, a.InOrder e)
include h horder

/-- **No entry gets later.** -/
theorem freeTime_le : c.freeTime e.qubits ≤ e.time := by
  obtain ⟨moved, hperm, hmoved, -⟩ := h.moved
  rw [UInt64.le_iff_toNat_le, freeTime_le_iff h.consistent.toScheduled]
  intro a' ha' hshared
  obtain ⟨a, ha, haa'⟩ := exists_mem_of_forall₂ hmoved (hperm.mem_iff.1 ha')
  rw [Apart, haa'.qubits] at hshared
  have hlt := UInt64.lt_iff_toNat_lt.1 (horder a ha hshared)
  have hle := UInt64.le_iff_toNat_le.1 haa'.time
  omega

theorem freeTime_ne_lastTime (hcheck : checkEntry e = .ok ()) :
    c.freeTime e.qubits ≠ nextTime.lastTime := by
  have hle := UInt64.le_iff_toNat_le.1 (h.freeTime_le horder)
  have hlt := ne_lastTime_iff.1 (checkEntry_eq_ok_iff.1 hcheck).1
  exact ne_lastTime_iff.2 (Nat.lt_of_le_of_lt hle hlt)

/-- **What is compacted stays so** with one more entry. -/
theorem concat (hcheck : checkEntry e = .ok ()) : Compacts (es ++ [e]) (c.settle e) := by
  have hscheduled := h.consistent.toScheduled
  have hadd := addEntry_settled hscheduled hcheck (h.freeTime_ne_lastTime horder hcheck)
  obtain ⟨moved, hperm, hmoved, hpairwise⟩ := h.moved
  refine ⟨h.consistent.addEntry hadd, tight_settle h.tight hscheduled e, moved ++ [c.settled e], ?_,
    List.rel_append hmoved (.cons ⟨rfl, rfl, h.freeTime_le horder⟩ .nil), ?_⟩
  · exact (insert_perm _ _).trans ((hperm.cons _).trans (List.perm_append_singleton ..).symm)
  · refine List.pairwise_append.2 ⟨hpairwise, List.pairwise_singleton .., ?_⟩
    intro a ha b hb hshared
    obtain rfl := List.mem_singleton.1 hb
    exact lt_freeTime hscheduled (hperm.mem_iff.2 ha)
      (TimedEntry.touches_iff_not_apart.2 (show ¬ Apart TimedEntry.qubits a e from hshared))

end Compacts

/-! ### What is compacted already -/

section Tight

variable {earlier later : List (TimedEntry α)} (ht : t.Consistent)
  (hentries : earlier ++ e :: later = t.entries)
include ht hentries

theorem scheduled_earlier : (⟨earlier⟩ : TimedCircuit α).Scheduled := by
  have hsorted := ht.sorted
  rw [← hentries, List.pairwise_append] at hsorted
  refine ⟨hsorted.1, fun a ha => ht.inTime a ?_⟩
  rw [← hentries]
  exact List.mem_append_left _ ha

theorem before_of_mem_earlier {a : TimedEntry α} (ha : a ∈ earlier) : a.before e := by
  have hsorted := ht.sorted
  rw [← hentries, List.pairwise_append] at hsorted
  exact hsorted.2.2 a ha e (List.mem_cons_self ..)

/-- An entry at an earlier time stands before. -/
theorem mem_earlier_of_lt {a : TimedEntry α} (ha : a ∈ t.entries) (hlt : a.time < e.time) :
    a ∈ earlier := by
  have hsorted := ht.sorted
  rw [← hentries, List.pairwise_append, List.pairwise_cons] at hsorted
  rw [← hentries, List.mem_append, List.mem_cons] at ha
  rcases ha with ha | rfl | ha
  · exact ha
  · exact absurd hlt Std.lt_irrefl
  · have hle := TimedEntry.time_le_of_before (hsorted.2.1.1 a ha)
    exact absurd hle (UInt64.not_le.2 hlt)

/-- In a tight circuit each entry is at the first time after those before it. -/
theorem Tight.freeTime_eq (h : t.Tight) :
    (⟨earlier⟩ : TimedCircuit α).freeTime e.qubits = e.time := by
  have hscheduled := scheduled_earlier ht hentries
  have he : e ∈ t.entries := by
    rw [← hentries]
    exact List.mem_append_right _ (List.mem_cons_self ..)
  refine UInt64.toNat_inj.1 (le_antisymm ?_ ?_)
  · rw [freeTime_le_iff hscheduled]
    intro a ha hshared
    have hinOrder := ht.inOrder
    rw [← hentries, List.pairwise_append] at hinOrder
    exact UInt64.lt_iff_toNat_lt.1 (hinOrder.2.2 a ha e (List.mem_cons_self ..) hshared)
  · cases hn : e.time.toNat with
    | zero => exact Nat.zero_le _
    | succ n =>
      obtain ⟨a, ha, hna, hshared⟩ := h e he n hn
      have hlt : a.time < e.time := by
        rw [UInt64.lt_iff_toNat_lt, hna, hn]
        exact Nat.lt_succ_self n
      have hbelow := (freeTime_le_iff hscheduled).1 le_rfl a
        (mem_earlier_of_lt ht hentries ha hlt) hshared
      omega

end Tight

/-- An entry after all others is added at the end. -/
theorem insert_eq_append {e : TimedEntry α} {entries : List (TimedEntry α)}
    (h : ∀ a ∈ entries, a.before e) : insert e entries = entries ++ [e] := by
  induction entries with
  | nil => rfl
  | cons a rest ih =>
    obtain ⟨ha, hrest⟩ := List.forall_mem_cons.1 h
    rw [insert_of_not_before (TimedEntry.not_before_of_before ha), ih hrest, List.cons_append]

/-- **A tight circuit is not changed by compaction**: each entry finds the time it was at. -/
theorem Tight.compacted_eq (h : t.Tight) (ht : t.Consistent) : t.compacted = t := by
  -- the entries before the ones that are left are in place
  have hfold : ∀ later earlier : List (TimedEntry α), earlier ++ later = t.entries →
      later.foldl settle ⟨earlier⟩ = t := by
    intro later
    induction later with
    | nil =>
      intro earlier hentries
      rw [← List.append_nil earlier, hentries]
      rfl
    | cons e later ih =>
      intro earlier hentries
      have hsettle : settle ⟨earlier⟩ e = ⟨earlier ++ [e]⟩ := by
        rw [settle, settled, h.freeTime_eq ht hentries]
        exact congrArg TimedCircuit.mk
          (insert_eq_append fun a => before_of_mem_earlier ht hentries)
      rw [List.foldl_cons, hsettle]
      exact ih (earlier ++ [e]) (by rw [← hentries, List.append_assoc, List.singleton_append])
  exact hfold t.entries [] rfl

/-! ### Circuits without given times -/

/-- Whether the circuit chooses the time of the gate. -/
def Edit.isAdd : Edit α → Bool
  | addAt .. => false
  | _ => true

/-- The circuits that calls which choose the time lead to from the empty one, whether the calls
succeed or fail. -/
inductive Placed : TimedCircuit α → Prop
  | empty : Placed empty
  | edit {c : TimedCircuit α} (h : Placed c) (edit : Edit α) (hadd : edit.isAdd) :
    Placed (edit.outcome c).2

theorem Placed.reachable (h : c.Placed) : c.Reachable := by
  induction h with
  | empty => exact .empty
  | edit _ edit _ hc => exact hc.edit edit

theorem Edit.settled_entry {edit : Edit α} (hadd : edit.isAdd) :
    c.settled (edit.entry c) = edit.entry c := by
  cases edit with
  | addAt => cases hadd
  | _ => rfl

/-- **Such circuits are tight.** -/
theorem Placed.tight (h : c.Placed) : c.Tight := by
  induction h with
  | empty => exact tight_empty
  | @edit c hplaced edit hadd hc =>
    rw [Edit.outcome_eq]
    cases hentry : c.addEntry (edit.entry c) with
    | error _ => exact hc
    | ok c' =>
      obtain ⟨-, -, rfl⟩ := addEntry_eq_ok_iff.1 hentry
      have hsettle := tight_settle hc hplaced.reachable.consistent.toScheduled (edit.entry c)
      rw [settle, Edit.settled_entry hadd] at hsettle
      exact hsettle

end TimedCircuit

/-! ### There and back -/

/-- The gate has a canonical one: no parameter, or `theta` alone with a double in the range of
double precision for a rotation. -/
inductive TimedGate.Convertible : TimedGate Float → Prop
  | plain {name : TimedName} (hname : name ≠ .st) (hplain : name.isRotation = false) :
    Convertible (.plain name)
  | rotation {name : TimedName} {theta : Float} (hrotation : name.isRotation = true)
    (hfinite : (theta * Scalar.two : Float).isFinite) : Convertible (.rotation name theta)

/-- What a gate stores, as a record. -/
theorem TimedGate.Convertible.exists_stores {gate : TimedGate Float} (h : gate.Convertible) :
    ∃ (name : GateName) (params : List Float), TimedGate.Stores name params gate ∧
      name.qubitCount = gate.name.qubitCount ∧ params.length = name.paramCount ∧
      ∀ x ∈ params, x.isFinite ∧ x / Scalar.two * Scalar.two = x := by
  cases h with
  | @plain name hname hplain =>
    cases name
    case st => exact absurd rfl hname
    case rx | ry | rz => cases hplain
    all_goals exact ⟨_, [], by constructor, rfl, rfl, nofun⟩
  | @rotation name theta hrotation hfinite =>
    have hhalf := Decimal.half_double hfinite
    have hstores : ∃ name', TimedGate.Stores name' [theta * Scalar.two]
        (.rotation name (theta * Scalar.two / Scalar.two)) ∧
          name'.qubitCount = name.qubitCount ∧ 1 = name'.paramCount := by
      cases name
      case rx => exact ⟨.rx, .rx _, rfl, rfl⟩
      case ry => exact ⟨.ry, .ry _, rfl, rfl⟩
      case rz => exact ⟨.rz, .rz _, rfl, rfl⟩
      all_goals cases hrotation
    obtain ⟨name', hstores, hqubits, hparams⟩ := hstores
    rw [hhalf] at hstores
    refine ⟨name', _, hstores, hqubits, hparams, ?_⟩
    rw [List.forall_mem_singleton, hhalf]
    exact ⟨hfinite, rfl⟩

theorem Record.WellFormed.codable {r : Record Float} (h : r.WellFormed)
    (hfinite : ∀ x ∈ r.params, x.isFinite) : r.Codable := by
  refine ⟨h.qubits_ne, hfinite, fun hplain => h.params_eq_nil (Bool.eq_false_iff.2 hplain),
    fun hrotation => ?_⟩
  obtain ⟨theta, htheta⟩ := h.exists_params_eq hrotation
  rw [htheta]
  exact List.cons_ne_nil _ _

/-- **An entry is exported as a record that is read back as its gate**, on the same qubits. -/
theorem TimedEntry.exists_record {e : TimedEntry Float}
    (hcheck : TimedCircuit.checkEntry e = .ok ()) (hgate : e.gate.Convertible) :
    ∃ r, e.record = .ok r ∧ r.Codable ∧ r.WellFormed ∧ TimedEntry.Stores r e := by
  obtain ⟨-, hcount, hnodup⟩ := TimedCircuit.checkEntry_eq_ok_iff.1 hcheck
  obtain ⟨name, params, hstores, hqubits, hparams, hexact⟩ := hgate.exists_stores
  have hwellFormed : (⟨name, params, e.qubits⟩ : Record Float).WellFormed :=
    ⟨hcount.trans hqubits.symm, hparams, hnodup⟩
  have hredoubled : (⟨name, params, e.qubits⟩ : Record Float).redoubled =
      ⟨name, params, e.qubits⟩ :=
    congrArg (Record.mk name · e.qubits)
      ((List.map_congr_left fun x hx => (hexact x hx).2).trans (List.map_id params))
  have hrecord := TimedEntry.record_eq hwellFormed (e := e) ⟨hstores, rfl⟩
  rw [hredoubled] at hrecord
  exact ⟨_, hrecord, hwellFormed.codable fun x hx => (hexact x hx).1, hwellFormed, hstores, rfl⟩

namespace TimedCircuit

/-- **Records are added as their entries are compacted.** -/
theorem Compacts.foldlM_addRecord {α : Type} [Scalar α] {rs : List (Record α)}
    {earlier later : List (TimedEntry α)} {c : TimedCircuit α}
    (hrs : List.Forall₂ (fun r e => r.WellFormed ∧ TimedEntry.Stores r e) rs later)
    (hcheck : ∀ e ∈ later, checkEntry e = .ok ())
    (horder : (earlier ++ later).Pairwise TimedEntry.InOrder) (h : Compacts earlier c) :
    rs.foldlM addRecord c = .ok (later.foldl settle c) ∧
      Compacts (earlier ++ later) (later.foldl settle c) := by
  induction hrs generalizing earlier c with
  | nil =>
    rw [List.append_nil]
    exact ⟨rfl, h⟩
  | @cons r e rs later hr _ ih =>
    obtain ⟨hwellFormed, hstores⟩ := hr
    obtain ⟨he, hlater⟩ := List.forall_mem_cons.1 hcheck
    have hbefore : ∀ a ∈ earlier, a.InOrder e := fun a ha =>
      (List.pairwise_append.1 horder).2.2 a ha e (List.mem_cons_self ..)
    have hadd : c.addRecord r = .ok (c.settle e) := by
      rw [addRecord_eq_ok_iff h.consistent.toScheduled, ← hstores.qubits]
      exact ⟨hwellFormed, h.freeTime_ne_lastTime hbefore he, e.gate,
        TimedGate.ofRecord_of_stores hstores.gate, rfl⟩
    rw [List.append_cons] at horder ⊢
    rw [List.foldlM_cons, hadd, List.foldl_cons]
    exact ih hlater horder (h.concat hbefore he)

theorem Compacts.timeCount_le {α : Type} {t c : TimedCircuit α} (h : Compacts t.entries c)
    (ht : t.Scheduled) : c.timeCount ≤ t.timeCount := by
  obtain ⟨moved, hperm, hmoved, -⟩ := h.moved
  rw [UInt64.le_iff_toNat_le, toNat_timeCount_le_iff h.consistent.toScheduled]
  intro e' he'
  obtain ⟨e, he, hee'⟩ := exists_mem_of_forall₂ hmoved (hperm.mem_iff.1 he')
  have hlt := (toNat_timeCount_le_iff ht).1 le_rfl e he
  have hle := UInt64.le_iff_toNat_le.1 hee'.time
  omega

variable {t : TimedCircuit Float}

/-- **A circuit comes back compacted.** -/
theorem Consistent.exists_toCircuit (ht : t.Consistent)
    (hgates : ∀ e ∈ t.entries, e.gate.Convertible) :
    ∃ c, t.toCircuit = .ok c ∧ ofCircuit c = .ok t.compacted ∧
      Compacts t.entries t.compacted := by
  have hcheck : ∀ e ∈ t.entries, checkEntry e = .ok () := fun e he =>
    checkEntry_eq_ok_iff.2 ⟨ht.inTime e he, ht.qubitCount e he, ht.nodup e he⟩
  have hrecords := fun e he => TimedEntry.exists_record (hcheck e he) (hgates e he)
  have : Nonempty (Record Float) := ⟨⟨.i, [], []⟩⟩
  choose! record hrecord hcodable hwellFormed hstores using hrecords
  have hexported : t.toCircuit = .ok (.ofRecords (t.entries.map record)) := by
    have hresults : t.records = .ok (t.entries.map record) := by
      rw [records, mapM_eq_ok_iff, List.forall₂_map_right_iff]
      exact List.forall₂_same.2 hrecord
    rw [toCircuit, hresults]
    rfl
  have hparsed : (Circuit.ofRecords (t.entries.map record)).gates = .ok (t.entries.map record) :=
    Circuit.gates_ofRecords (List.forall_mem_map.2 hcodable)
  have hstored : List.Forall₂ (fun r e => r.WellFormed ∧ TimedEntry.Stores r e)
      (t.entries.map record) t.entries := by
    rw [List.forall₂_map_left_iff]
    exact List.forall₂_same.2 fun e he => ⟨hwellFormed e he, hstores e he⟩
  have hinOrder : ([] ++ t.entries).Pairwise TimedEntry.InOrder := ht.inOrder
  obtain ⟨hadded, hcompacts⟩ := Compacts.foldlM_addRecord hstored hcheck hinOrder compacts_empty
  refine ⟨_, hexported, ?_, hcompacts⟩
  rw [ofCircuit, hparsed]
  exact hadded

end TimedCircuit

/-- **Circuits of timed gates come back compacted.** A reachable circuit of gates with a canonical
form, with angles in range, is exported and imported as the same gates on the same qubits, each at
the same time or an earlier one. Gates that share a qubit keep their order, and there are no more
times. A circuit that chose all its times itself comes back as it was, and so does every circuit
that has come back once. -/
theorem timed_round_trip_compacts {t : TimedCircuit Float} (h : t.Reachable)
    (hgates : ∀ e ∈ t.entries, e.gate.Convertible) :
    ∃ c t', t.toCircuit = .ok c ∧ TimedCircuit.ofCircuit c = .ok t' ∧
      (∃ moved, t'.entries.Perm moved ∧
        List.Forall₂ (fun e e' => e'.gate = e.gate ∧ e'.qubits = e.qubits ∧ e'.time ≤ e.time)
          t.entries moved ∧
        t.entries.Pairwise TimedEntry.InOrder ∧ moved.Pairwise TimedEntry.InOrder) ∧
      t'.timeCount ≤ t.timeCount ∧
      (t.Placed → t' = t) ∧
      ∃ c', t'.toCircuit = .ok c' ∧ TimedCircuit.ofCircuit c' = .ok t' := by
  have ht := h.consistent
  obtain ⟨c, hexport, himport, hcompacts⟩ := ht.exists_toCircuit hgates
  obtain ⟨moved, hperm, hmoved, horder⟩ := hcompacts.moved
  have hgates' : ∀ e' ∈ t.compacted.entries, e'.gate.Convertible := by
    intro e' he'
    obtain ⟨e, he, hee'⟩ := exists_mem_of_forall₂ hmoved (hperm.mem_iff.1 he')
    rw [hee'.gate]
    exact hgates e he
  obtain ⟨c', hexport', himport', -⟩ := hcompacts.consistent.exists_toCircuit hgates'
  rw [hcompacts.tight.compacted_eq hcompacts.consistent] at himport'
  exact ⟨c, t.compacted, hexport, himport,
    ⟨moved, hperm, hmoved.imp fun _ _ hee' => ⟨hee'.gate, hee'.qubits, hee'.time⟩, ht.inOrder,
      horder⟩,
    hcompacts.timeCount_le ht.toScheduled, fun hplaced => hplaced.tight.compacted_eq ht, c',
    hexport', himport'⟩

/-- Two gates with a gap before and between them, and the same gates without. -/
theorem timed_round_trip_compacts_gap :
    (∃ c t', TimedCircuit.toCircuit
        ⟨[⟨3, [0], .plain .h⟩, ⟨7, [0], .rotation .rz Scalar.half⟩]⟩ = .ok c ∧
      TimedCircuit.ofCircuit c = .ok t' ∧ t'.timeCount ≤ 8 ∧
      ∃ c', t'.toCircuit = .ok c' ∧ TimedCircuit.ofCircuit c' = .ok t') ∧
    ∃ c, TimedCircuit.toCircuit
        ⟨[⟨0, [0], .plain .h⟩, ⟨1, [0], .rotation .rz Scalar.half⟩]⟩ = .ok c ∧
      TimedCircuit.ofCircuit c =
        .ok ⟨[⟨0, [0], .plain .h⟩, ⟨1, [0], .rotation .rz Scalar.half⟩]⟩ := by
  have hplain : TimedGate.Convertible (.plain .h) := .plain (by decide) rfl
  have hrotation : TimedGate.Convertible (.rotation .rz Scalar.half) :=
    .rotation rfl (by decide +kernel)
  constructor
  · have hgap := (TimedCircuit.Reachable.empty.edit (α := Float) (.addAt (.plain .h) [0] 3)).edit
      (.addAt (.rotation .rz Scalar.half) [0] 7)
    obtain ⟨c, t', hexport, himport, -, htimes, -, hagain⟩ := timed_round_trip_compacts hgap
      (List.forall_mem_cons.2 ⟨hplain, List.forall_mem_singleton.2 hrotation⟩)
    exact ⟨c, t', hexport, himport, htimes, hagain⟩
  · have hplaced := (TimedCircuit.Placed.empty.edit (α := Float) (.h 0) rfl).edit
      (.rz 0 Scalar.half) rfl
    obtain ⟨c, t', hexport, himport, -, -, hsame, -⟩ := timed_round_trip_compacts hplaced.reachable
      (List.forall_mem_cons.2 ⟨hplain, List.forall_mem_singleton.2 hrotation⟩)
    rw [hsame hplaced] at himport
    exact ⟨c, hexport, himport⟩

end CircuitExchange
