import Mathlib
import CircuitExchange.Proofs.Order.Chain
import CircuitExchange.Proofs.Order.NormalForm

/-!
Both schedulers give a record the earliest step after the records it shares a qubit with, so they
give it the same step: one looks for the last moment that touches the qubits, the other takes a
maximum over all entries.

* `MomentCircuit.Holds`, `TimedCircuit.Holds`: which record is held at which step.
* `MomentCircuit.logged_holds`, `TimedCircuit.logged_holds`: what a run gives, and keeps.
* `schedules_are_longest_chains`: both compute the same schedule, and it is minimal.
-/

namespace CircuitExchange

/-! ### Moments -/

namespace MomentCircuit

section Moments

variable {α : Type} {ms : List (Moment α)} {op : MomentOperation α} {n : ℕ}

theorem touches_eq_false_iff {m : Moment α} {qs : List Qubit} :
    m.touches qs = false ↔ ∀ op ∈ m, op.qubits.Disjoint qs := by
  rw [Moment.touches, List.any_eq_false]
  exact forall₂_congr fun op _ => Bool.not_eq_true _ ▸ any_contains_eq_false_iff

/-- No moment from this one on touches the qubits. -/
theorem place_le_iff {qs : List Qubit} :
    place qs ms ≤ n ↔ ∀ j ≥ n, (ms.getD j []).touches qs = false := by
  induction ms generalizing n with
  | nil => exact iff_of_true (Nat.zero_le n) fun _ _ => rfl
  | cons m rest ih =>
    cases n with
    | zero =>
      have hrest := ih (n := 0)
      have hplace : place qs (m :: rest) ≤ 0 ↔ m.touches qs = false ∧ place qs rest ≤ 0 := by
        rw [place]
        cases place qs rest <;> simp
      rw [hplace, hrest]
      constructor
      · rintro ⟨hm, hrest⟩ (_ | j) _
        · exact hm
        · exact hrest j (Nat.zero_le j)
      · intro hall
        exact ⟨hall 0 le_rfl, fun j _ => hall (j + 1) (Nat.zero_le _)⟩
    | succ n =>
      have hplace : place qs (m :: rest) ≤ n + 1 ↔ place qs rest ≤ n := by
        rw [place]
        cases place qs rest with
        | zero =>
          dsimp only
          split <;> simp
        | succ k => exact Nat.succ_le_succ_iff
      rw [hplace, ih]
      constructor
      · rintro hall (_ | j) hj
        · cases hj
        · exact hall j (Nat.le_of_succ_le_succ hj)
      · intro hall j hj
        exact hall (j + 1) (Nat.succ_le_succ hj)

theorem place_le_length (qs : List Qubit) : place qs ms ≤ ms.length := by
  refine place_le_iff.2 fun j hj => ?_
  rw [List.getD_eq_default _ _ hj]
  rfl

theorem getD_addAt (hn : n ≤ ms.length) (j : ℕ) :
    (addAt op n ms).getD j [] = ms.getD j [] ++ if n = j then [op] else [] := by
  induction ms generalizing n j with
  | nil =>
    obtain rfl := Nat.le_zero.1 hn
    cases j <;> simp [addAt]
  | cons m rest ih =>
    cases n with
    | zero => cases j <;> simp [addAt]
    | succ n =>
      cases j with
      | zero => simp [addAt]
      | succ j => simpa [addAt] using ih (Nat.le_of_succ_le_succ hn) j

theorem nil_notMem_addAt (h : [] ∉ ms) : [] ∉ addAt op n ms := by
  induction ms generalizing n with
  | nil => cases n <;> simp [addAt]
  | cons m rest ih =>
    rw [List.mem_cons, not_or] at h
    cases n with
    | zero => simp [addAt, h.2]
    | succ n => simp [addAt, h.1, ih h.2]

end Moments

variable {α : Type} [Scalar α] {m m' : MomentCircuit α} {ps : List (Record α × ℕ)} {r : Record α}

/-- Each moment holds the records of its step, in their order, and no moment is empty. -/
structure Holds (m : MomentCircuit α) (ps : List (Record α × ℕ)) : Prop where
  moment : ∀ j, List.Forall₂ (fun p op => MomentOperation.Stores p.1 op)
    (ps.filter (·.2 = j)) (m.moments.getD j [])
  nonempty : [] ∉ m.moments

theorem holds_empty : (empty : MomentCircuit α).Holds [] :=
  ⟨fun _ => .nil, List.not_mem_nil⟩

/-- A record is appended to the moment after the last one that touches its qubits. -/
theorem appendRecord_eq_ok (h : m.appendRecord r = .ok m') :
    ∃ op, MomentOperation.Stores r op ∧ m' = ⟨addAt op (place r.qubits m.moments) m.moments⟩ := by
  obtain ⟨_, harity, h⟩ := bind_eq_ok h
  obtain ⟨gate, hgate, h⟩ := bind_eq_ok h
  obtain ⟨_, hvalid, h⟩ := bind_eq_ok (mapError_eq_ok h)
  have hr := r.checkArity_eq_ok_iff.1 (mapError_eq_ok harity)
  have hstores := MomentGate.stores_of_ofRecord hr (mapError_eq_ok hgate)
  exact ⟨⟨gate, r.qubits⟩, ⟨hstores, rfl⟩, (Except.ok.inj h).symm⟩

/-- **A record is put into the earliest moment.** -/
theorem Holds.isEarliest_place (h : m.Holds ps) (r : Record α) :
    IsEarliest ps r (place r.qubits m.moments) := by
  refine isEarliest_of_le_iff fun k => ?_
  have htouches : ∀ j, (m.moments.getD j []).touches r.qubits = false ↔
      ∀ p ∈ ps.filter (·.2 = j), Apart Record.qubits p.1 r := by
    intro j
    rw [touches_eq_false_iff]
    refine (forall_mem_iff_of_forall₂ (h.moment j) fun hstores => ?_).symm
    rw [Apart, hstores.qubits]
  simp only [place_le_iff, htouches, List.mem_filter, decide_eq_true_eq]
  constructor
  · intro hall p hp hshared
    by_contra hle
    exact hshared (hall p.2 (Nat.le_of_not_lt hle) p ⟨hp, rfl⟩)
  · rintro hall _ hj p ⟨hp, rfl⟩
    by_contra hshared
    exact absurd (hall p hp hshared) (Nat.not_lt.2 hj)

/-- The record that is appended is held, and so are those before. -/
theorem Holds.appendRecord (h : m.Holds ps) (hadd : m.appendRecord r = .ok m') :
    m'.Holds (ps ++ [(r, place r.qubits m.moments)]) := by
  obtain ⟨op, hop, rfl⟩ := appendRecord_eq_ok hadd
  refine ⟨fun j => ?_, nil_notMem_addAt h.nonempty⟩
  rw [getD_addAt (place_le_length _), List.filter_append]
  refine List.rel_append (h.moment j) ?_
  by_cases hj : place r.qubits m.moments = j
  · simpa [hj] using hop
  · simp [hj]

/-- Every step below the depth is that of a record. -/
theorem Holds.lt_depth_iff (h : m.Holds ps) {n : ℕ} : n < m.depth ↔ ∃ p ∈ ps, p.2 = n := by
  have hmoment := h.moment n
  constructor
  · intro hn
    have hne : m.moments.getD n [] ≠ [] := by
      rw [List.getD_eq_getElem _ _ hn]
      exact fun hnil => h.nonempty (hnil ▸ List.getElem_mem hn)
    obtain ⟨op, hop⟩ := List.exists_mem_of_ne_nil _ hne
    obtain ⟨p, hp, -⟩ := exists_mem_of_forall₂ hmoment hop
    exact ⟨p, by simpa using hp⟩
  · rintro ⟨p, hp, rfl⟩
    by_contra hle
    rw [List.getD_eq_default _ _ (Nat.le_of_not_lt hle), List.forall₂_nil_right_iff,
      List.filter_eq_nil_iff] at hmoment
    exact hmoment p hp (decide_eq_true rfl)

/-- **What a run of appended records gives and keeps.** -/
theorem logged_holds
    (h : Logged appendRecord (fun (m : MomentCircuit α) r => place r.qubits m.moments) empty ps m) :
    Earliest ps ∧ m.Holds ps :=
  h.earliest Holds holds_empty fun _ _ _ r hholds hadd =>
    ⟨hholds.isEarliest_place r, hholds.appendRecord hadd⟩

end MomentCircuit

/-! ### Timed entries -/

namespace TimedCircuit

variable {α : Type} {n : ℕ}

theorem toNat_foldl_nextTime {es : List (TimedEntry α)} (h : ∀ e ∈ es, e.time ≠ nextTime.lastTime)
    (time : UInt64) : (es.foldl (fun time e => max time (nextTime e.time)) time).toNat =
      es.foldl (fun n e => max n (e.time.toNat + 1)) time.toNat := by
  induction es generalizing time with
  | nil => rfl
  | cons e es ih =>
    obtain ⟨he, hes⟩ := List.forall_mem_cons.1 h
    rw [List.foldl_cons, List.foldl_cons, ih hes, UInt64.toNat_max, toNat_nextTime he]

/-- A maximum of next times is at most a number if all times are below it. -/
theorem foldl_nextTime_le_iff {es : List (TimedEntry α)}
    (h : ∀ e ∈ es, e.time ≠ nextTime.lastTime) :
    (es.foldl (fun time e => max time (nextTime e.time)) 0).toNat ≤ n ↔
      ∀ e ∈ es, e.time.toNat < n := by
  rw [toNat_foldl_nextTime h,
    foldl_max_le_iff (fun _ _ => Nat.max_def) (fun e : TimedEntry α => e.time.toNat + 1)]
  simp [UInt64.toNat_zero]

section Times

variable {t : TimedCircuit α} (ht : t.Scheduled)
include ht

theorem toNat_freeTime_le_iff {qs : List Qubit} :
    (t.freeTime qs).toNat ≤ n ↔ ∀ e ∈ t.entries, e.touches qs → e.time.toNat < n := by
  have hinTime : ∀ e ∈ t.entries.filter (·.touches qs), e.time ≠ nextTime.lastTime :=
    fun e he => ht.inTime e (List.mem_filter.1 he).1
  rw [freeTime, foldl_nextTime_le_iff hinTime]
  simp only [List.mem_filter, and_imp]

theorem toNat_timeCount_le_iff : t.timeCount.toNat ≤ n ↔ ∀ e ∈ t.entries, e.time.toNat < n :=
  foldl_nextTime_le_iff ht.inTime

end Times

variable [Scalar α] {t t' : TimedCircuit α} {ps : List (Record α × ℕ)} {r : Record α}

/-- The entries are those of the records, each at its step. -/
structure Holds (t : TimedCircuit α) (ps : List (Record α × ℕ)) : Prop where
  scheduled : t.Scheduled
  entries : ∃ es, t.entries.Perm es ∧
    List.Forall₂ (fun p e => TimedEntry.Stores p.1 e ∧ e.time.toNat = p.2) ps es

theorem holds_empty : (empty : TimedCircuit α).Holds [] :=
  ⟨scheduled_empty, [], .refl _, .nil⟩

theorem Holds.forall_entries_iff (h : t.Holds ps) {P : Record α × ℕ → Prop}
    {Q : TimedEntry α → Prop}
    (hPQ : ∀ p e, TimedEntry.Stores p.1 e → e.time.toNat = p.2 → (P p ↔ Q e)) :
    (∀ e ∈ t.entries, Q e) ↔ ∀ p ∈ ps, P p := by
  obtain ⟨es, hperm, hstored⟩ := h.entries
  rw [forall_mem_iff_of_forall₂ hstored fun {p e} hpe => hPQ p e hpe.1 hpe.2]
  exact forall_congr' fun e => imp_congr_left hperm.mem_iff

/-- **A record is given the earliest time.** -/
theorem Holds.isEarliest_freeTime (h : t.Holds ps) (r : Record α) :
    IsEarliest ps r (t.freeTime r.qubits).toNat := by
  refine isEarliest_of_le_iff fun k => ?_
  rw [toNat_freeTime_le_iff h.scheduled]
  refine h.forall_entries_iff fun p e hstores htime => ?_
  have htouches : e.touches r.qubits ↔ ¬ Apart Record.qubits p.1 r := by
    rw [Apart, ← hstores.qubits, ← any_contains_eq_false_iff, Bool.not_eq_false]
    rfl
  rw [htouches, htime]

/-- The record that is added is held, and so are those before. -/
theorem Holds.addRecord (h : t.Holds ps) (hadd : t.addRecord r = .ok t') :
    t'.Holds (ps ++ [(r, (t.freeTime r.qubits).toNat)]) := by
  refine ⟨(inserted_addRecord h.scheduled hadd).1, ?_⟩
  obtain ⟨hr, -, gate, hgate, rfl⟩ := (addRecord_eq_ok_iff h.scheduled).1 hadd
  obtain ⟨es, hperm, hstored⟩ := h.entries
  refine ⟨es ++ [⟨t.freeTime r.qubits, r.qubits, gate⟩], ?_, List.rel_append hstored ?_⟩
  · exact (insert_perm _ _).trans ((hperm.cons _).trans (List.perm_append_singleton ..).symm)
  · exact .cons ⟨⟨TimedGate.stores_of_ofRecord hr hgate, rfl⟩, rfl⟩ .nil

/-- **What a run of added records gives and keeps.** -/
theorem logged_holds
    (h : Logged addRecord (fun (t : TimedCircuit α) r => (t.freeTime r.qubits).toNat) empty ps t) :
    Earliest ps ∧ t.Holds ps :=
  h.earliest Holds holds_empty fun _ _ _ r hholds hadd =>
    ⟨hholds.isEarliest_freeTime r, hholds.addRecord hadd⟩

theorem Holds.timeCount_le_iff (h : t.Holds ps) : t.timeCount.toNat ≤ n ↔ ∀ p ∈ ps, p.2 < n := by
  rw [toNat_timeCount_le_iff h.scheduled]
  exact h.forall_entries_iff fun p e _ htime => by rw [htime]

end TimedCircuit

/-! ### Both schedulers -/

section Both

variable {α : Type} [Scalar α] {m : MomentCircuit α} {t : TimedCircuit α}
  {ps : List (Record α × ℕ)}

/-- A circuit of moments has as many moments as a circuit of timed gates has times. -/
theorem depth_eq_timeCount (hm : m.Holds ps) (ht : t.Holds ps) : m.depth = t.timeCount.toNat := by
  refine eq_of_forall_ge_iff fun n => ?_
  rw [ht.timeCount_le_iff]
  constructor
  · intro hle p hp
    exact (hm.lt_depth_iff.2 ⟨p, hp, rfl⟩).trans_le hle
  · intro hall
    by_contra hlt
    obtain ⟨p, hp, rfl⟩ := hm.lt_depth_iff.1 (Nat.lt_of_not_le hlt)
    exact lt_irrefl _ (hall p hp)

/-- **No assignment of steps that keeps records in order uses fewer steps** than there are
moments. -/
theorem MomentCircuit.Holds.depth_le_card_image (hm : m.Holds ps) (h : Earliest ps) {step : ℕ → ℕ}
    (hstep : ∀ i j, Follows (ps.map Prod.fst) i j → step i < step j) :
    m.depth ≤ ((Finset.range ps.length).image step).card := by
  cases hdepth : m.depth with
  | zero => exact Nat.zero_le _
  | succ n =>
    -- the chain to a record of the last moment
    have hlast : n < m.depth := by
      rw [hdepth]
      exact Nat.lt_succ_self n
    obtain ⟨p, hp, rfl⟩ := hm.lt_depth_iff.1 hlast
    obtain ⟨i, hi⟩ := List.mem_iff_getElem?.1 hp
    obtain ⟨is, hlength, hchain⟩ := h.exists_chain hi
    have hlt : i < (ps.map Prod.fst).length := by
      rw [List.length_map]
      exact (List.getElem?_eq_some_iff.1 hi).1
    have hcard := length_le_card_image hstep hlt hchain
    rwa [hlength, List.length_map] at hcard

end Both

/-- **Both schedulers compute the same schedule, and it is minimal.** The moment that a record is
put into and the time that it is given are the length of the longest chain of records before it,
each of which shares a qubit with the next one. The circuit of moments is as deep as the circuit of
timed gates has times, and no other steps that keep such records in order are fewer. -/
theorem schedules_are_longest_chains {c : Circuit} {m : MomentCircuit Float}
    {t : TimedCircuit Float} (hm : MomentCircuit.ofCircuit c = .ok m)
    (ht : TimedCircuit.ofCircuit c = .ok t) :
    ∃ ps : List (Record Float × ℕ), c.gates = .ok (ps.map Prod.fst) ∧
      Logged MomentCircuit.appendRecord (fun m r => MomentCircuit.place r.qubits m.moments)
        .empty ps m ∧
      Logged TimedCircuit.addRecord (fun t r => (t.freeTime r.qubits).toNat) .empty ps t ∧
      m.Holds ps ∧ t.Holds ps ∧
      (∀ i p, ps[i]? = some p → IsGreatest {k | ∃ is : List ℕ, is.length = k ∧
        (is ++ [i]).IsChain (Follows (ps.map Prod.fst))} p.2) ∧
      m.depth = t.timeCount.toNat ∧
      ∀ step : ℕ → ℕ, (∀ i j, Follows (ps.map Prod.fst) i j → step i < step j) →
        m.depth ≤ ((Finset.range ps.length).image step).card := by
  obtain ⟨rs, hrs, hm⟩ := bind_eq_ok hm
  obtain ⟨rs', hrs', ht⟩ := bind_eq_ok ht
  obtain rfl := Except.ok.inj (hrs.symm.trans hrs')
  obtain ⟨ps, rfl, hmoments⟩ := exists_logged _ hm
  obtain ⟨qs, hqs, htimes⟩ := exists_logged _ ht
  obtain ⟨hearliest, hholds⟩ := MomentCircuit.logged_holds hmoments
  obtain ⟨hearliest', hholds'⟩ := TimedCircuit.logged_holds htimes
  obtain rfl := hearliest.unique hearliest' hqs.symm
  exact ⟨ps, mapError_eq_ok hrs, hmoments, htimes, hholds, hholds',
    fun _ _ hp => hearliest.isGreatest hp, depth_eq_timeCount hholds hholds',
    fun _ hstep => hholds.depth_le_card_image hearliest hstep⟩

/-- Three gates, the second of which shares a qubit with the first. -/
theorem schedules_are_longest_chains_three : ∃ (m : MomentCircuit Float) (t : TimedCircuit Float)
    (ps : List (Record Float × ℕ)),
    MomentCircuit.ofCircuit ⟨["X(1)", "CX(0, 1)", "RZ(PI)(2)"]⟩ = .ok m ∧
      TimedCircuit.ofCircuit ⟨["X(1)", "CX(0, 1)", "RZ(PI)(2)"]⟩ = .ok t ∧
      Circuit.gates ⟨["X(1)", "CX(0, 1)", "RZ(PI)(2)"]⟩ = .ok (ps.map Prod.fst) ∧
      m.Holds ps ∧ t.Holds ps ∧ m.depth = 2 ∧ t.timeCount = 2 := by
  have hm : MomentCircuit.ofCircuit ⟨["X(1)", "CX(0, 1)", "RZ(PI)(2)"]⟩ =
      .ok ⟨[[⟨.x, [1]⟩, ⟨.rz (Scalar.pi / Scalar.pi), [2]⟩], [⟨.cnot, [0, 1]⟩]]⟩ := by
    decide +kernel
  have ht : TimedCircuit.ofCircuit ⟨["X(1)", "CX(0, 1)", "RZ(PI)(2)"]⟩ =
      .ok ⟨[⟨0, [1], .plain .x⟩, ⟨0, [2], .rotation .rz (Scalar.pi / Scalar.two)⟩,
        ⟨1, [0, 1], .plain .cx⟩]⟩ := by
    decide +kernel
  obtain ⟨ps, hgates, -, -, hholds, hholds', -, -, -⟩ := schedules_are_longest_chains hm ht
  exact ⟨_, _, ps, hm, ht, hgates, hholds, hholds', rfl, by decide⟩

end CircuitExchange
