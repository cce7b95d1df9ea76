import Mathlib
import CircuitExchange.Proofs.Order.Acceptance

/-!
The circuit of timed gates that records are made into is a normal form of the records up to
exchanging neighbours on different qubits. The time of a gate depends on the gates that share a
qubit with it, so exchanged neighbours get the times they had; and reading the entries in their
order is itself such a reordering, so records with one circuit can be turned into each other.

* `TimedCircuit.insert_comm`, `TimedCircuit.addRecord_comm`: neighbours may be added in either
  order.
* `TimedCircuit.ofRecords_of_reordered`: reordered records make the same circuit.
* `TimedEntry.Stores.halved_eq`: what is stored of a record is the record with its angle halved.
* `timed_form_is_canonical`: the same circuit exactly for the same records, reordered.
-/

namespace CircuitExchange

namespace TimedEntry

variable {α : Type} {e e' : TimedEntry α}

theorem not_before_self : ¬ e.before e := by
  rw [before_iff]
  rintro (h | ⟨-, h⟩)
  · exact Std.lt_irrefl h
  · exact List.lt_irrefl _ h

/-- No two entries are before each other. -/
theorem not_before_of_before (h : e.before e') : ¬ e'.before e := fun h' =>
  not_before_self (before_trans h h')

end TimedEntry

namespace TimedCircuit

/-! ### Exchanging insertions -/

section Insert

variable {α : Type} {e e' : TimedEntry α}

theorem insert_of_before {a : TimedEntry α} (h : e.before a) (rest : List (TimedEntry α)) :
    insert e (a :: rest) = e :: a :: rest := by rw [insert, if_pos h]

theorem insert_of_not_before {a : TimedEntry α} (h : ¬ e.before a) (rest : List (TimedEntry α)) :
    insert e (a :: rest) = a :: insert e rest := by rw [insert, if_neg h]

theorem insert_comm_of_before (h : e.before e') (entries : List (TimedEntry α)) :
    insert e (insert e' entries) = insert e' (insert e entries) := by
  have hlater := TimedEntry.not_before_of_before h
  -- in every case the later insertion passes the entry inserted before it exactly if that is `e`
  induction entries with
  | nil =>
    change insert e (e' :: []) = insert e' (e :: [])
    rw [insert_of_before h, insert_of_not_before hlater]
    rfl
  | cons a rest ih =>
    by_cases ha' : e'.before a
    · have ha := TimedEntry.before_trans h ha'
      rw [insert_of_before ha', insert_of_before h, insert_of_before ha,
        insert_of_not_before hlater, insert_of_before ha']
    · rw [insert_of_not_before ha']
      by_cases ha : e.before a
      · rw [insert_of_before ha, insert_of_before ha, insert_of_not_before hlater,
          insert_of_not_before ha']
      · rw [insert_of_not_before ha, insert_of_not_before ha, insert_of_not_before ha', ih]

/-- **Entries with different keys may be inserted in either order.** -/
theorem insert_comm (h : e.before e' ∨ e'.before e) (entries : List (TimedEntry α)) :
    insert e (insert e' entries) = insert e' (insert e entries) := by
  rcases h with h | h
  · exact insert_comm_of_before h entries
  · exact (insert_comm_of_before h entries).symm

/-- Entries that a filter leaves out may be inserted or not. -/
theorem filter_insert {p : TimedEntry α → Bool} (h : p e = false) (entries : List (TimedEntry α)) :
    (insert e entries).filter p = entries.filter p := by
  induction entries with
  | nil => rw [insert, List.filter_cons_of_neg (Bool.eq_false_iff.1 h)]
  | cons a rest ih =>
    rw [insert]
    split
    · rw [List.filter_cons_of_neg (Bool.eq_false_iff.1 h)]
    · rw [List.filter_cons, ih, List.filter_cons]

end Insert

/-! ### Exchanging records -/

section Records

variable {α : Type} [Scalar α] {c c₁ c₂ : TimedCircuit α} {r r' : Record α}

omit [Scalar α] in
/-- A gate on other qubits has no effect on the first free time. -/
theorem freeTime_insert (c : TimedCircuit α) {qs qs' : List Qubit} (h : qs'.Disjoint qs)
    (time : UInt64) (gate : TimedGate α) :
    (⟨insert ⟨time, qs', gate⟩ c.entries⟩ : TimedCircuit α).freeTime qs = c.freeTime qs := by
  have htouches : (⟨time, qs', gate⟩ : TimedEntry α).touches qs = false :=
    any_contains_eq_false_iff.2 h
  rw [freeTime, freeTime, filter_insert htouches]

omit [Scalar α] in
/-- The qubits of an entry are free at the first free time. -/
theorem not_occupied_freeTime (hc : c.Scheduled) (qs : List Qubit) :
    c.occupied qs (c.freeTime qs) = false := by
  refine not_occupied_iff.2 fun e he htime => any_contains_eq_false_iff.1 ?_
  by_contra htouches
  have hlt := lt_freeTime hc he (Bool.not_eq_false _ ▸ htouches)
  rw [htime] at hlt
  exact Std.lt_irrefl hlt

theorem qubitCount_of_ofRecord {g : TimedGate α} (h : TimedGate.ofRecord r = .ok g) :
    g.name.qubitCount = r.name.qubitCount := by
  obtain ⟨name, params, qubits⟩ := r
  cases name
  case rx | ry | rz =>
    obtain ⟨theta, -, rfl⟩ := map_eq_ok h
    rfl
  all_goals
    obtain rfl := Except.ok.inj h
    rfl

/-- **A well formed record is added at the first free time**, unless no time comes after that. -/
theorem addRecord_eq_ok_iff (hc : c.Scheduled) :
    c.addRecord r = .ok c₁ ↔ r.WellFormed ∧ c.freeTime r.qubits ≠ nextTime.lastTime ∧
      ∃ gate, TimedGate.ofRecord r = .ok gate ∧
        c₁ = ⟨insert ⟨c.freeTime r.qubits, r.qubits, gate⟩ c.entries⟩ := by
  constructor
  · intro h
    obtain ⟨_, harity, h⟩ := bind_eq_ok h
    obtain ⟨gate, hgate, h⟩ := bind_eq_ok h
    obtain ⟨⟨time, c₂⟩, hadd, h⟩ := bind_eq_ok h
    obtain rfl := Except.ok.inj h
    obtain ⟨rfl, hadd⟩ := add_eq_ok_iff.1 (mapError_eq_ok hadd)
    obtain ⟨hcheck, -, rfl⟩ := addEntry_eq_ok_iff.1 hadd
    exact ⟨r.checkArity_eq_ok_iff.1 (mapError_eq_ok harity), (checkEntry_eq_ok_iff.1 hcheck).1,
      gate, mapError_eq_ok hgate, rfl⟩
  · rintro ⟨hr, htime, gate, hgate, rfl⟩
    have hcount := hr.qubitCount.trans (qubitCount_of_ofRecord hgate).symm
    have hadd : c.add gate r.qubits = .ok (c.freeTime r.qubits, _) :=
      add_eq_ok_iff.2 ⟨rfl, addEntry_eq_ok_iff.2
        ⟨checkEntry_eq_ok_iff.2 ⟨htime, hcount, hr.nodup⟩, not_occupied_freeTime hc _, rfl⟩⟩
    rw [addRecord, r.checkArity_eq_ok_iff.2 hr, hgate]
    exact congrArg (fun result => Except.mapError _ result >>= fun result => .ok result.2) hadd

/-- **Records on different qubits may be added in either order.** -/
theorem addRecord_comm (hc : c.Scheduled) (hapart : Apart Record.qubits r r')
    (h : c.addRecord r = .ok c₁) (h' : c₁.addRecord r' = .ok c₂) :
    ∃ c₁', c.addRecord r' = .ok c₁' ∧ c₁'.addRecord r = .ok c₂ := by
  have hc₁ := (inserted_addRecord hc h).1
  obtain ⟨hr, htime, gate, hgate, rfl⟩ := (addRecord_eq_ok_iff hc).1 h
  obtain ⟨hr', htime', gate', hgate', rfl⟩ := (addRecord_eq_ok_iff hc₁).1 h'
  rw [freeTime_insert c hapart] at htime' ⊢
  have hadded : c.addRecord r' =
      .ok ⟨insert ⟨c.freeTime r'.qubits, r'.qubits, gate'⟩ c.entries⟩ :=
    (addRecord_eq_ok_iff hc).2 ⟨hr', htime', gate', hgate', rfl⟩
  refine ⟨_, hadded, (addRecord_eq_ok_iff (inserted_addRecord hc hadded).1).2 ?_⟩
  rw [freeTime_insert c hapart.symm]
  refine ⟨hr, htime, gate, hgate, congrArg TimedCircuit.mk (insert_comm ?_ _)⟩
  -- the keys are different, as the qubits are
  refine TimedEntry.before_or_before fun _ (heq : r'.qubits = r.qubits) => ?_
  obtain ⟨q, hq⟩ := List.exists_mem_of_ne_nil _ hr.qubits_ne
  exact hapart hq (heq ▸ hq)

theorem foldlM_addRecord_of_reordered {rs rs' : List (Record α)}
    (h : Reordered (Apart Record.qubits) rs rs') (hc : c.Scheduled)
    (hfold : rs.foldlM addRecord c = .ok c₁) : rs'.foldlM addRecord c = .ok c₁ := by
  induction h generalizing c with
  | nil => exact hfold
  | cons r _ ih =>
    rw [List.foldlM_cons] at hfold ⊢
    obtain ⟨c', hc', hfold⟩ := bind_eq_ok hfold
    rw [hc']
    exact ih (inserted_addRecord hc hc').1 hfold
  | swap rs hapart =>
    rw [List.foldlM_cons] at hfold ⊢
    obtain ⟨c', hc', hfold⟩ := bind_eq_ok hfold
    rw [List.foldlM_cons] at hfold
    obtain ⟨c'', hc'', hfold⟩ := bind_eq_ok hfold
    obtain ⟨d, hd, hd'⟩ := addRecord_comm hc hapart hc' hc''
    rw [hd, ok_bind, List.foldlM_cons, hd']
    exact hfold
  | trans _ _ ih ih' => exact ih' hc (ih hc hfold)

/-- **Reordered records make the same circuit.** -/
theorem ofRecords_of_reordered {rs rs' : List (Record α)}
    (h : Reordered (Apart Record.qubits) rs rs') (hc : ofRecords rs = .ok c) :
    ofRecords rs' = .ok c :=
  foldlM_addRecord_of_reordered h scheduled_empty hc

end Records

end TimedCircuit

/-! ### Halved angles -/

section Halved

variable {α : Type} [Scalar α]

/-- The record with its angles halved, as a timed gate stores them. -/
def Record.halved (r : Record α) : Record α := r.mapAngles (· / Scalar.two)

/-- **What is stored of a record is the record with its angles halved.** -/
theorem TimedEntry.Stores.halved_eq {r r' : Record α} {e : TimedEntry α}
    (h : TimedEntry.Stores r e) (h' : TimedEntry.Stores r' e) : r.halved = r'.halved := by
  have hread : ∀ {r : Record α}, TimedEntry.Stores r e →
      e.gate.name.canonical? = some r.name ∧
        r.halved = ⟨r.name, e.gate.parameters.entries.map Prod.snd, e.qubits⟩ := by
    obtain ⟨time, qubits, gate⟩ := e
    rintro ⟨name, params, qubits'⟩ ⟨hgate, rfl⟩
    cases hgate <;> exact ⟨rfl, rfl⟩
  obtain ⟨hname, hr⟩ := hread h
  obtain ⟨hname', hr'⟩ := hread h'
  rw [hr, hr', Option.some.inj (hname.symm.trans hname')]

/-- Records with the same angles halved are made into the same gate. -/
theorem TimedGate.ofRecord_of_halved_eq {r r' : Record α} (h : r.halved = r'.halved)
    {g : TimedGate α} (hg : TimedGate.ofRecord r = .ok g) : TimedGate.ofRecord r' = .ok g := by
  obtain ⟨name, params, qubits⟩ := r
  obtain ⟨name', params', qubits'⟩ := r'
  obtain ⟨rfl, hparams, rfl⟩ := Record.mk.inj h
  cases name
  case rx | ry | rz =>
    obtain ⟨theta, htheta, rfl⟩ := map_eq_ok hg
    obtain rfl : params = [theta] := Record.angle_eq_ok htheta
    obtain ⟨theta', rfl, htheta'⟩ := List.map_eq_singleton_iff.1 hparams.symm
    change theta' / Scalar.two = theta / Scalar.two at htheta'
    rw [← htheta']
    rfl
  all_goals exact hg

theorem Record.WellFormed.of_halved_eq {r r' : Record α} (h : r.halved = r'.halved)
    (hr : r.WellFormed) : r'.WellFormed := by
  obtain ⟨name, params, qubits⟩ := r
  obtain ⟨name', params', qubits'⟩ := r'
  obtain ⟨rfl, hparams, rfl⟩ := Record.mk.inj h
  have hlength := congrArg List.length hparams
  rw [List.length_map, List.length_map] at hlength
  exact ⟨hr.qubitCount, hlength.symm.trans hr.paramCount, hr.nodup⟩

namespace TimedCircuit

variable {c t : TimedCircuit α}

/-- Adding a record depends on its angle halved alone. -/
theorem addRecord_of_halved_eq {r r' : Record α} (h : r.halved = r'.halved) (hc : c.Scheduled)
    (hadd : c.addRecord r = .ok t) : c.addRecord r' = .ok t := by
  have hqubits : r.qubits = r'.qubits := (Record.mk.inj h).2.2
  obtain ⟨hr, htime, gate, hgate, rfl⟩ := (addRecord_eq_ok_iff hc).1 hadd
  rw [hqubits] at htime ⊢
  exact (addRecord_eq_ok_iff hc).2
    ⟨hr.of_halved_eq h, htime, gate, TimedGate.ofRecord_of_halved_eq h hgate, rfl⟩

theorem foldlM_addRecord_of_halved_eq {rs rs' : List (Record α)}
    (h : rs.map Record.halved = rs'.map Record.halved) (hc : c.Scheduled)
    (hfold : rs.foldlM addRecord c = .ok t) : rs'.foldlM addRecord c = .ok t := by
  induction rs generalizing c rs' with
  | nil =>
    obtain rfl := List.map_eq_nil_iff.1 h.symm
    exact hfold
  | cons r rs ih =>
    obtain ⟨r', rs', rfl, hr, hrs⟩ := List.map_eq_cons_iff.1 h.symm
    rw [List.foldlM_cons] at hfold ⊢
    obtain ⟨c', hc', hfold⟩ := bind_eq_ok hfold
    rw [addRecord_of_halved_eq hr.symm hc hc']
    exact ih hrs.symm (inserted_addRecord hc hc').1 hfold

/-- **Records that are reordered once their angles are halved make the same circuit.** -/
theorem ofRecords_of_reordered_halved {rs rs' : List (Record α)}
    (h : Reordered (Apart Record.qubits) (rs.map Record.halved) (rs'.map Record.halved))
    (ht : ofRecords rs = .ok t) : ofRecords rs' = .ok t := by
  obtain ⟨ks, hks, heq⟩ := h.exists_map
  exact foldlM_addRecord_of_halved_eq heq.symm scheduled_empty (ofRecords_of_reordered hks ht)

/-- **Records that make the same circuit are reordered**, once their angles are halved. -/
theorem reordered_halved_of_ofRecords {rs rs' : List (Record α)} (ht : ofRecords rs = .ok t)
    (ht' : ofRecords rs' = .ok t) :
    Reordered (Apart Record.qubits) (rs.map Record.halved) (rs'.map Record.halved) := by
  obtain ⟨-, ks, hks, hstored⟩ := reordered_ofRecords ht
  obtain ⟨-, ks', hks', hstored'⟩ := reordered_ofRecords ht'
  -- both lists are stored as the entries of the one circuit
  have heq : ks.map Record.halved = ks'.map Record.halved := by
    refine map_eq_map_of_forall₂ ((forall₂_of_common hstored.flip hstored'.flip).imp ?_)
    rintro k k' ⟨e, hk, hk'⟩
    exact hk.2.halved_eq hk'.2
  have hhalved : ∀ r r' : Record α, Apart Record.qubits r r' →
      Apart Record.qubits r.halved r'.halved := fun _ _ hapart => hapart
  have hleft := hks.map hhalved
  have hright := (hks'.map hhalved).symm fun _ _ => Apart.symm
  rw [heq] at hleft
  exact hleft.trans hright

end TimedCircuit

end Halved

/-- **The circuit of timed gates is a normal form** of the records up to exchanging neighbours that
share no qubit: two accepted circuits are made into the same one exactly if their records, with
every angle halved, can be turned into each other by such exchanges. -/
theorem timed_form_is_canonical {c c' : Circuit} {t t' : TimedCircuit Float}
    (h : TimedCircuit.ofCircuit c = .ok t) (h' : TimedCircuit.ofCircuit c' = .ok t') :
    ∃ rs rs', c.gates = .ok rs ∧ c'.gates = .ok rs' ∧
      (t = t' ↔
        Reordered (Apart Record.qubits) (rs.map Record.halved) (rs'.map Record.halved)) := by
  obtain ⟨rs, hrs, ht⟩ := bind_eq_ok h
  obtain ⟨rs', hrs', ht'⟩ := bind_eq_ok h'
  refine ⟨rs, rs', mapError_eq_ok hrs, mapError_eq_ok hrs', ?_⟩
  constructor
  · rintro rfl
    exact TimedCircuit.reordered_halved_of_ofRecords ht ht'
  · intro hreordered
    have hsame := TimedCircuit.ofRecords_of_reordered_halved hreordered ht
    exact Except.ok.inj (hsame.symm.trans ht')

/-- Two gates on different qubits, in both orders. -/
theorem timed_form_is_canonical_exchange :
    ∃ rs rs', Circuit.gates ⟨["X(1)", "RZ(PI)(2)"]⟩ = .ok rs ∧
      Circuit.gates ⟨["RZ(PI)(2)", "X(1)"]⟩ = .ok rs' ∧
      Reordered (Apart Record.qubits) (rs.map Record.halved) (rs'.map Record.halved) := by
  have h : TimedCircuit.ofCircuit ⟨["X(1)", "RZ(PI)(2)"]⟩ =
      .ok ⟨[⟨0, [1], .plain .x⟩, ⟨0, [2], .rotation .rz (Scalar.pi / Scalar.two)⟩]⟩ := by
    decide +kernel
  have h' : TimedCircuit.ofCircuit ⟨["RZ(PI)(2)", "X(1)"]⟩ =
      .ok ⟨[⟨0, [1], .plain .x⟩, ⟨0, [2], .rotation .rz (Scalar.pi / Scalar.two)⟩]⟩ := by
    decide +kernel
  obtain ⟨rs, rs', hrs, hrs', hiff⟩ := timed_form_is_canonical h h'
  exact ⟨rs, rs', hrs, hrs', hiff.1 rfl⟩

end CircuitExchange
