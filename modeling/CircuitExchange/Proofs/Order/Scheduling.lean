import Mathlib
import CircuitExchange.Moment.Basic
import CircuitExchange.Timed.Basic
import CircuitExchange.Proofs.Order.Reordering
import CircuitExchange.Proofs.Result

/-!
Scheduled circuits hold their gates in an order of their own, in which an added gate comes after all
gates that share a qubit with it. So a run of additions only exchanges gates on disjoint qubits.

* `MomentCircuit.inserted_append`: where an appended operation goes.
* `TimedCircuit.Scheduled`: entries in their order, at times that have a next one.
* `TimedCircuit.scheduled_add`, `TimedCircuit.inserted_add`: where an added gate goes.
* `reordered_of_foldlM`: a run of additions reorders what is added.
-/

namespace CircuitExchange

/-- The two act on different qubits. -/
def Apart {β : Type} (qubits : β → List Qubit) (a b : β) : Prop := (qubits a).Disjoint (qubits b)

section Apart

variable {β : Type} {qubits : β → List Qubit} {a b : β}

theorem Apart.symm (h : Apart qubits a b) : Apart qubits b a := List.Disjoint.symm h

theorem not_apart_iff : ¬ Apart qubits a b ↔ ∃ q, q ∈ qubits a ∧ q ∈ qubits b := by
  simp [Apart, List.disjoint_left]

theorem any_contains_eq_false_iff {qs qs' : List Qubit} :
    qs.any qs'.contains = false ↔ qs.Disjoint qs' := by
  simp [List.any_eq_false, List.disjoint_left]

end Apart

/-- A maximum is below a bound if everything it is taken of is. -/
theorem foldl_max_le_iff {β γ : Type} [Max γ] [LE γ] [DecidableLE γ] [Std.IsLinearPreorder γ]
    (hmax : ∀ a b : γ, max a b = if a ≤ b then b else a) (f : β → γ) (bs : List β) (c n : γ) :
    bs.foldl (fun c b => max c (f b)) c ≤ n ↔ c ≤ n ∧ ∀ b ∈ bs, f b ≤ n := by
  induction bs generalizing c with
  | nil => simp
  | cons b bs ih =>
    have hmaxLe : max c (f b) ≤ n ↔ c ≤ n ∧ f b ≤ n := by
      rw [hmax]
      split
      · constructor
        · intro h
          exact ⟨Std.le_trans ‹_› h, h⟩
        · intro h
          exact h.2
      · have hle := Std.le_of_not_ge ‹_›
        constructor
        · intro h
          exact ⟨h, Std.le_trans hle h⟩
        · intro h
          exact h.1
    rw [List.foldl_cons, ih, hmaxLe, List.forall_mem_cons, and_assoc]

/-- The second list is the first one with one more entry, put before entries apart from it. -/
def Inserted {β : Type} (apart : β → β → Prop) (b : β) (l l' : List β) : Prop :=
  ∃ l₁ l₂, l = l₁ ++ l₂ ∧ l' = l₁ ++ b :: l₂ ∧ ∀ a ∈ l₂, apart a b

theorem Inserted.reordered {β : Type} {apart : β → β → Prop} {b : β} {l l' : List β}
    (h : Inserted apart b l l') : Reordered apart (l ++ [b]) l' := by
  obtain ⟨l₁, l₂, rfl, rfl, hapart⟩ := h
  exact .append_singleton hapart

/-- **A run of additions reorders what is added**, if each of them inserts it before entries apart
from it and keeps an invariant. -/
theorem reordered_of_foldlM {σ ρ β ε : Type} {add : σ → ρ → Except ε σ} (entries : σ → List β)
    {apart : β → β → Prop} {stores : ρ → β → Prop} (inv : σ → Prop)
    (hadd : ∀ s r s', inv s → add s r = .ok s' →
      inv s' ∧ ∃ b, stores r b ∧ Inserted apart b (entries s) (entries s'))
    {s s' : σ} {rs : List ρ} (hs : inv s) (h : rs.foldlM add s = .ok s') :
    inv s' ∧ ∃ bs, List.Forall₂ stores rs bs ∧ Reordered apart (entries s ++ bs) (entries s') := by
  induction rs generalizing s with
  | nil =>
    obtain rfl := Except.ok.inj h
    refine ⟨hs, [], .nil, ?_⟩
    rw [List.append_nil]
    exact .refl _
  | cons r rs ih =>
    rw [List.foldlM_cons] at h
    obtain ⟨s₁, hr, h⟩ := bind_eq_ok h
    obtain ⟨hs₁, b, hb, hinserted⟩ := hadd s r s₁ hs hr
    obtain ⟨hs', bs, hbs, hreordered⟩ := ih hs₁ h
    refine ⟨hs', b :: bs, .cons hb hbs, ?_⟩
    have hfirst := hinserted.reordered.append_right bs
    rw [List.append_assoc, List.singleton_append] at hfirst
    exact hfirst.trans hreordered

/-! ### Moments -/

namespace MomentCircuit

variable {α : Type}

theorem disjoint_of_place_eq_zero {qs : List Qubit} {ms : List (Moment α)}
    (h : place qs ms = 0) : ∀ op ∈ ms.flatten, op.qubits.Disjoint qs := by
  induction ms with
  | nil => simp
  | cons m rest ih =>
    rw [place] at h
    split at h
    · have htouches : m.touches qs = false := by
        by_contra hne
        simp [hne] at h
      intro op hop
      rcases List.mem_append.1 hop with hop | hop
      · rw [Moment.touches, List.any_eq_false] at htouches
        exact any_contains_eq_false_iff.1 (Bool.eq_false_iff.2 (htouches op hop))
      · exact ih ‹_› op hop
    · cases h

theorem inserted_addAt (op : MomentOperation α) {n : Nat} {ms : List (Moment α)}
    (h : place op.qubits ms ≤ n) :
    Inserted (Apart MomentOperation.qubits) op ms.flatten (addAt op n ms).flatten := by
  induction ms generalizing n with
  | nil => exact ⟨[], [], by simp, by cases n <;> rfl, by simp⟩
  | cons m rest ih =>
    cases n with
    | zero =>
      have hzero := Nat.le_zero.1 h
      have hrest : place op.qubits rest = 0 := by
        rw [place] at hzero
        split at hzero
        · assumption
        · cases hzero
      refine ⟨m, rest.flatten, by simp, by simp [addAt], disjoint_of_place_eq_zero hrest⟩
    | succ n =>
      have hrest : place op.qubits rest ≤ n := by
        rw [place] at h
        split at h <;> omega
      obtain ⟨l₁, l₂, heq, heq', hapart⟩ := ih hrest
      refine ⟨m ++ l₁, l₂, by simp [heq], by simp [addAt, heq'], hapart⟩

/-- **An appended operation is inserted before operations apart from it.** -/
theorem inserted_append {c c' : MomentCircuit α} {op : MomentOperation α}
    (h : c.append op = .ok c') :
    op.validate = .ok () ∧
      Inserted (Apart MomentOperation.qubits) op c.operations c'.operations := by
  obtain ⟨_, hvalid, h⟩ := bind_eq_ok h
  obtain rfl := Except.ok.inj h
  exact ⟨hvalid, inserted_addAt op (Nat.le_refl _)⟩

end MomentCircuit

/-! ### Timed entries -/

namespace TimedEntry

variable {α : Type} {e e' e'' : TimedEntry α}

theorem before_iff :
    e.before e' ↔ e.time < e'.time ∨ e.time = e'.time ∧ e.qubits < e'.qubits := by
  simp [before]

theorem before_trans (h : e.before e') (h' : e'.before e'') : e.before e'' := by
  rw [before_iff] at *
  rcases h with h | ⟨h, hqubits⟩
  · rcases h' with h' | ⟨h', -⟩
    · exact .inl (Std.lt_trans h h')
    · exact .inl (h' ▸ h)
  · rcases h' with h' | ⟨h', hqubits'⟩
    · exact .inl (h ▸ h')
    · exact .inr ⟨h.trans h', List.lt_trans hqubits hqubits'⟩

/-- Entries with different keys are ordered. -/
theorem before_or_before (h : e.time = e'.time → e.qubits ≠ e'.qubits) :
    e.before e' ∨ e'.before e := by
  rw [before_iff, before_iff]
  rcases Std.lt_trichotomy e.time e'.time with hlt | heq | hgt
  · exact .inl (.inl hlt)
  · rcases Std.lt_trichotomy e.qubits e'.qubits with hlt | hqubits | hgt
    · exact .inl (.inr ⟨heq, hlt⟩)
    · exact absurd hqubits (h heq)
    · exact .inr (.inr ⟨heq.symm, hgt⟩)
  · exact .inr (.inl hgt)

theorem time_le_of_before (h : e.before e') : e.time ≤ e'.time := by
  rcases before_iff.1 h with h | ⟨h, -⟩
  · exact Std.le_of_lt h
  · exact h ▸ Std.le_refl _

end TimedEntry

namespace TimedCircuit

variable {α : Type}

theorem mem_insert {e a : TimedEntry α} {entries : List (TimedEntry α)} :
    a ∈ insert e entries ↔ a = e ∨ a ∈ entries := by
  induction entries with
  | nil => simp [insert]
  | cons b rest ih =>
    rw [insert]
    split
    · exact List.mem_cons
    · rw [List.mem_cons, ih, List.mem_cons]
      tauto

theorem insert_perm (e : TimedEntry α) (entries : List (TimedEntry α)) :
    (insert e entries).Perm (e :: entries) := by
  induction entries with
  | nil => exact .refl _
  | cons a rest ih =>
    rw [insert]
    split
    · exact .refl _
    · exact (ih.cons a).trans (.swap e a rest)

theorem pairwise_insert {e : TimedEntry α} {entries : List (TimedEntry α)}
    (h : entries.Pairwise fun a b => a.before b)
    (hkeys : ∀ a ∈ entries, e.before a ∨ a.before e) :
    (insert e entries).Pairwise fun a b => a.before b := by
  induction entries with
  | nil => exact List.pairwise_singleton ..
  | cons a rest ih =>
    obtain ⟨ha, hrest⟩ := List.pairwise_cons.1 h
    rw [insert]
    split
    · refine List.pairwise_cons.2 ⟨fun b hb => ?_, h⟩
      rcases List.mem_cons.1 hb with rfl | hb
      · assumption
      · exact TimedEntry.before_trans ‹_› (ha b hb)
    · have hae := (hkeys a (List.mem_cons_self ..)).resolve_left ‹_›
      refine List.pairwise_cons.2
        ⟨fun b hb => ?_, ih hrest fun b hb => hkeys b (List.mem_cons_of_mem a hb)⟩
      rcases mem_insert.1 hb with rfl | hb
      · exact hae
      · exact ha b hb

theorem inserted_insert {apart : TimedEntry α → TimedEntry α → Prop} {e : TimedEntry α}
    {entries : List (TimedEntry α)} (h : entries.Pairwise fun a b => a.before b)
    (hapart : ∀ a ∈ entries, e.before a → apart a e) :
    Inserted apart e entries (insert e entries) := by
  induction entries with
  | nil => exact ⟨[], [], rfl, rfl, by simp⟩
  | cons a rest ih =>
    obtain ⟨ha, hrest⟩ := List.pairwise_cons.1 h
    rw [insert]
    split
    · refine ⟨[], a :: rest, rfl, rfl, fun b hb => hapart b hb ?_⟩
      rcases List.mem_cons.1 hb with rfl | hb
      · assumption
      · exact TimedEntry.before_trans ‹_› (ha b hb)
    · obtain ⟨l₁, l₂, heq, heq', hl₂⟩ := ih hrest fun b hb => hapart b (List.mem_cons_of_mem a hb)
      exact ⟨a :: l₁, l₂, by rw [heq]; rfl, by rw [heq']; rfl, hl₂⟩

/-- An entry is added if it passes its check and its qubits are free. -/
theorem addEntry_eq_ok_iff {c c' : TimedCircuit α} {e : TimedEntry α} :
    c.addEntry e = .ok c' ↔
      checkEntry e = .ok () ∧ c.occupied e.qubits e.time = false ∧ ⟨insert e c.entries⟩ = c' := by
  rw [addEntry]
  cases hcheck : checkEntry e with
  | error _ => exact ⟨nofun, fun h => nomatch h.1⟩
  | ok _ =>
    cases hoccupied : c.occupied e.qubits e.time with
    | true => exact ⟨nofun, fun h => nomatch h.2.1⟩
    | false =>
      constructor
      · intro h
        exact ⟨rfl, rfl, Except.ok.inj h⟩
      · rintro ⟨-, -, h⟩
        exact congrArg Except.ok h

/-- Qubits are free if the entries at the time are on others. -/
theorem not_occupied_iff {c : TimedCircuit α} {qs : List Qubit} {time : UInt64} :
    c.occupied qs time = false ↔ ∀ a ∈ c.entries, a.time = time → a.qubits.Disjoint qs := by
  rw [occupied, List.any_eq_false]
  refine forall₂_congr fun a _ => ?_
  rw [Bool.and_eq_true, beq_iff_eq, not_and, Bool.not_eq_true]
  exact imp_congr_right fun _ => any_contains_eq_false_iff

theorem checkEntry_eq_ok_iff {e : TimedEntry α} :
    checkEntry e = .ok () ↔ e.time ≠ nextTime.lastTime ∧
      e.qubits.length = e.gate.name.qubitCount ∧ e.qubits.Nodup := by
  have hrepeated := firstRepeated?_eq_none_iff [] e.qubits
  rw [checkEntry]
  by_cases htime : e.time = nextTime.lastTime
  · rw [if_pos htime]
    exact ⟨nofun, fun h => absurd htime h.1⟩
  · by_cases hcount : e.qubits.length = e.gate.name.qubitCount
    · rw [if_neg htime, if_neg (not_not_intro hcount)]
      cases hd : firstRepeated? [] e.qubits with
      | none =>
        constructor
        · intro _
          exact ⟨htime, hcount, (hrepeated.1 hd).1⟩
        · intro _
          rfl
      | some q =>
        constructor
        · intro h
          cases h
        · rintro ⟨-, -, hnodup⟩
          rw [hrepeated.2 ⟨hnodup, by simp⟩] at hd
          cases hd
    · rw [if_neg htime, if_pos hcount]
      exact ⟨nofun, fun h => absurd h.2.1 hcount⟩

/-- The entries stand in their order, at times that have a next one. -/
structure Scheduled (c : TimedCircuit α) : Prop where
  sorted : c.entries.Pairwise fun e e' => e.before e'
  inTime : ∀ e ∈ c.entries, e.time ≠ nextTime.lastTime

theorem scheduled_empty : (empty : TimedCircuit α).Scheduled := ⟨.nil, by simp [empty]⟩

theorem ne_nil_of_length_eq {qs : List Qubit} {name : TimedName} (h : qs.length = name.qubitCount) :
    qs ≠ [] := by
  rintro rfl
  cases name <;> cases h

/-- An entry whose key is in use shares its qubits with another one. -/
theorem qubits_ne_of_not_occupied {c : TimedCircuit α} {e : TimedEntry α} (hne : e.qubits ≠ [])
    (h : c.occupied e.qubits e.time = false) {a : TimedEntry α} (ha : a ∈ c.entries)
    (htime : e.time = a.time) : e.qubits ≠ a.qubits := by
  intro heq
  obtain ⟨q, hq⟩ := List.exists_mem_of_ne_nil _ hne
  exact not_occupied_iff.1 h a ha htime.symm (heq ▸ hq) hq

/-- **Adding an entry keeps the entries in their order.** -/
theorem scheduled_addEntry {c c' : TimedCircuit α} {e : TimedEntry α} (hc : c.Scheduled)
    (h : c.addEntry e = .ok c') : c'.Scheduled := by
  obtain ⟨hcheck, hfree, rfl⟩ := addEntry_eq_ok_iff.1 h
  obtain ⟨htime, hcount, -⟩ := checkEntry_eq_ok_iff.1 hcheck
  have hne := ne_nil_of_length_eq hcount
  refine ⟨pairwise_insert hc.sorted fun a ha => ?_, fun a ha => ?_⟩
  · exact TimedEntry.before_or_before (qubits_ne_of_not_occupied hne hfree ha)
  · rcases mem_insert.1 ha with rfl | ha
    · exact htime
    · exact hc.inTime a ha

theorem toNat_nextTime {time : UInt64} (h : time ≠ nextTime.lastTime) :
    (nextTime time).toNat = time.toNat + 1 := by
  have hsize := time.toNat_lt
  have hlast : time.toNat ≠ 2 ^ 64 - 1 := fun heq => h (UInt64.toNat_inj.1 heq)
  rw [nextTime, if_neg h, UInt64.toNat_add, UInt64.toNat_one]
  omega

theorem lt_nextTime {time : UInt64} (h : time ≠ nextTime.lastTime) : time < nextTime time := by
  rw [UInt64.lt_iff_toNat_lt, toNat_nextTime h]
  exact Nat.lt_succ_self _

/-- Entries that share a qubit come before the first free time. -/
theorem lt_freeTime {c : TimedCircuit α} (hc : c.Scheduled) {qs : List Qubit} {e : TimedEntry α}
    (he : e ∈ c.entries) (htouches : e.touches qs) : e.time < c.freeTime qs := by
  have hle := (foldl_max_le_iff UInt64.max_def
    (fun e : TimedEntry α => nextTime e.time) (c.entries.filter (·.touches qs)) 0 _).1
    (UInt64.le_refl (c.freeTime qs))
  exact Std.lt_of_lt_of_le (lt_nextTime (hc.inTime e he))
    (hle.2 e (List.mem_filter.2 ⟨he, htouches⟩))

/-- A gate is added as an entry at the first free time. -/
theorem add_eq_ok_iff {c c' : TimedCircuit α} {gate : TimedGate α} {qs : List Qubit}
    {time : UInt64} :
    c.add gate qs = .ok (time, c') ↔
      time = c.freeTime qs ∧ c.addEntry ⟨time, qs, gate⟩ = .ok c' := by
  constructor
  · intro h
    obtain ⟨c₁, hc₁, h⟩ := bind_eq_ok h
    obtain ⟨rfl, rfl⟩ := Prod.mk.inj (Except.ok.inj h)
    exact ⟨rfl, hc₁⟩
  · rintro ⟨rfl, h⟩
    rw [add, addAt, h]
    rfl

/-- **An added gate is inserted before entries apart from it.** -/
theorem inserted_add {c c' : TimedCircuit α} (hc : c.Scheduled) {gate : TimedGate α}
    {qs : List Qubit} {time : UInt64} (h : c.add gate qs = .ok (time, c')) :
    c'.Scheduled ∧ Inserted (Apart TimedEntry.qubits) ⟨time, qs, gate⟩ c.entries c'.entries := by
  obtain ⟨htime, hadd⟩ := add_eq_ok_iff.1 h
  refine ⟨scheduled_addEntry hc hadd, ?_⟩
  obtain ⟨-, -, rfl⟩ := addEntry_eq_ok_iff.1 hadd
  refine inserted_insert hc.sorted fun a ha hbefore => ?_
  -- an entry that shares a qubit would be earlier than the free time
  have htouches : a.touches qs = false := by
    by_contra hne
    have hlt := lt_freeTime hc ha (Bool.not_eq_false _ ▸ hne)
    rw [← htime] at hlt
    exact UInt64.not_le.2 hlt (TimedEntry.time_le_of_before hbefore)
  exact any_contains_eq_false_iff.1 htouches

end TimedCircuit

end CircuitExchange
