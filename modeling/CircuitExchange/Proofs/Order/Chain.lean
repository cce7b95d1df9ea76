import Mathlib
import CircuitExchange.Proofs.Order.Scheduling

/-!
Steps for records that keep those that share a qubit in order. If each record in turn is given the
earliest step after the ones it shares a qubit with, its step is the length of the longest chain of
records that leads to it, and no other steps in order are fewer.

* `IsEarliest`, `Earliest`: the earliest step of one record, and those of a list.
* `Earliest.isGreatest`: the earliest steps are the lengths of the longest chains.
* `length_le_card_image`: steps in order are at least as many as a chain has records.
* `Logged`: a run of additions, with the step that each record was given.
-/

namespace CircuitExchange

/-! ### Earliest steps -/

section Earliest

variable {α : Type} {ps qs : List (Record α × ℕ)} {p q : Record α × ℕ} {r : Record α} {n : ℕ}

/-- The step is the least one after all listed records that share a qubit with the record. -/
def IsEarliest (ps : List (Record α × ℕ)) (r : Record α) (n : ℕ) : Prop :=
  IsLeast {n | ∀ p ∈ ps, ¬ Apart Record.qubits p.1 r → p.2 < n} n

theorem isEarliest_of_le_iff
    (h : ∀ k, n ≤ k ↔ ∀ p ∈ ps, ¬ Apart Record.qubits p.1 r → p.2 < k) : IsEarliest ps r n :=
  ⟨(h n).1 le_rfl, fun k hk => (h k).2 hk⟩

/-- Each record has the earliest step that the records before it allow. -/
inductive Earliest : List (Record α × ℕ) → Prop
  | nil : Earliest []
  | append {ps : List (Record α × ℕ)} {r : Record α} {n : ℕ} (h : Earliest ps)
      (hn : IsEarliest ps r n) : Earliest (ps ++ [(r, n)])

/-- The earliest steps depend on the records alone. -/
theorem Earliest.unique (h : Earliest ps) (h' : Earliest qs)
    (hrecords : ps.map Prod.fst = qs.map Prod.fst) : ps = qs := by
  induction h generalizing qs with
  | nil => exact (List.map_eq_nil_iff.1 hrecords.symm).symm
  | append _ hn ih =>
    cases h' with
    | nil => simp at hrecords
    | append h' hn' =>
      rw [List.map_append, List.map_append] at hrecords
      obtain ⟨hrecords, hr⟩ := List.append_inj' hrecords rfl
      obtain rfl := ih h' hrecords
      obtain rfl := List.singleton_inj.1 hr
      rw [hn.unique hn']

theorem Earliest.isEarliest_take (h : Earliest ps) {i : ℕ} (hp : ps[i]? = some p) :
    IsEarliest (ps.take i) p.1 p.2 := by
  induction h with
  | nil => simp at hp
  | @append ps r n _ hn ih =>
    rcases Nat.lt_trichotomy i ps.length with hlt | rfl | hgt
    · rw [List.getElem?_append_left hlt] at hp
      rw [List.take_append_of_le_length hlt.le]
      exact ih hp
    · rw [List.getElem?_concat_length] at hp
      obtain rfl := Option.some.inj hp
      rw [List.take_left]
      exact hn
    · rw [List.getElem?_eq_none (by simpa using hgt)] at hp
      cases hp

/-! ### Chains -/

/-- The record at the second position comes later and acts on a qubit of the one at the first. -/
def Follows (rs : List (Record α)) (i j : ℕ) : Prop :=
  i < j ∧ ∃ r ∈ rs[i]?, ∃ r' ∈ rs[j]?, ¬ Apart Record.qubits r r'

theorem follows_iff {i j : ℕ} (hp : ps[i]? = some p) (hq : ps[j]? = some q) :
    Follows (ps.map Prod.fst) i j ↔ i < j ∧ ¬ Apart Record.qubits p.1 q.1 := by
  simp [Follows, hp, hq]

theorem Follows.exists_getElem? {i j : ℕ} (h : Follows (ps.map Prod.fst) i j) :
    ∃ p q, ps[i]? = some p ∧ ps[j]? = some q := by
  obtain ⟨-, r, hr, r', hr', -⟩ := h
  rw [List.getElem?_map] at hr hr'
  obtain ⟨p, hp, -⟩ := Option.map_eq_some_iff.1 hr
  obtain ⟨q, hq, -⟩ := Option.map_eq_some_iff.1 hr'
  exact ⟨p, q, hp, hq⟩

/-- A record comes at a later step than those it follows. -/
theorem Earliest.lt_of_follows (h : Earliest ps) {i j : ℕ} (hp : ps[i]? = some p)
    (hq : ps[j]? = some q) (hfollows : Follows (ps.map Prod.fst) i j) : p.2 < q.2 := by
  obtain ⟨hij, hshared⟩ := (follows_iff hp hq).1 hfollows
  have hmem : (ps.take j)[i]? = some p := by rwa [List.getElem?_take_of_lt hij]
  exact (h.isEarliest_take hq).1 p (List.mem_of_getElem? hmem) hshared

/-- A record that is not at the first step follows one at the step before. -/
theorem Earliest.exists_follows (h : Earliest ps) {j : ℕ} (hq : ps[j]? = some q)
    (hn : q.2 = n + 1) :
    ∃ i p, ps[i]? = some p ∧ p.2 = n ∧ Follows (ps.map Prod.fst) i j := by
  obtain ⟨hlater, hleast⟩ := h.isEarliest_take hq
  have hearlier : ¬ ∀ p ∈ ps.take j, ¬ Apart Record.qubits p.1 q.1 → p.2 < n := by
    intro hall
    have hle : q.2 ≤ n := hleast hall
    omega
  push Not at hearlier
  obtain ⟨p, hmem, hshared, hle⟩ := hearlier
  have hlt : p.2 < q.2 := hlater p hmem hshared
  obtain ⟨i, hi⟩ := List.mem_iff_getElem?.1 hmem
  rw [List.getElem?_take] at hi
  split at hi
  · exact ⟨i, p, hi, by omega, (follows_iff hi hq).2 ⟨‹_›, hshared⟩⟩
  · cases hi

/-- The steps that a chain of records goes through before the last one. -/
theorem length_le_of_isChain {R : ℕ → ℕ → Prop} {step : ℕ → ℕ}
    (hstep : ∀ i j, R i j → step i < step j) {is : List ℕ} {i : ℕ}
    (h : (is ++ [i]).IsChain R) : is.length ≤ step i := by
  induction is using List.reverseRecOn generalizing i with
  | nil => exact Nat.zero_le _
  | append_singleton is j ih =>
    obtain ⟨hchain, -, hlast⟩ := List.isChain_append.1 h
    have hle := ih hchain
    have hlt : step j < step i := hstep j i (hlast j (by simp) i rfl)
    rw [List.length_append, List.length_singleton]
    omega

theorem Earliest.exists_chain (h : Earliest ps) {i : ℕ} (hp : ps[i]? = some p) :
    ∃ is : List ℕ, is.length = p.2 ∧ (is ++ [i]).IsChain (Follows (ps.map Prod.fst)) := by
  induction hn : p.2 generalizing i p with
  | zero => exact ⟨[], rfl, .singleton i⟩
  | succ n ih =>
    obtain ⟨j, q, hq, rfl, hfollows⟩ := h.exists_follows hp hn
    obtain ⟨is, hlength, hchain⟩ := ih hq rfl
    refine ⟨is ++ [j], by simp [hlength], List.isChain_append.2 ⟨hchain, .singleton i, ?_⟩⟩
    simpa using hfollows

/-- **The earliest step of a record is the length of the longest chain to it.** -/
theorem Earliest.isGreatest (h : Earliest ps) {i : ℕ} (hp : ps[i]? = some p) :
    IsGreatest {k | ∃ is : List ℕ, is.length = k ∧
      (is ++ [i]).IsChain (Follows (ps.map Prod.fst))} p.2 := by
  refine ⟨h.exists_chain hp, ?_⟩
  rintro _ ⟨is, rfl, hchain⟩
  have hsteps : ∀ i j, Follows (ps.map Prod.fst) i j →
      (ps[i]?.map Prod.snd).getD 0 < (ps[j]?.map Prod.snd).getD 0 := by
    intro i j hfollows
    obtain ⟨p, q, hp, hq⟩ := hfollows.exists_getElem?
    rw [hp, hq]
    exact h.lt_of_follows hp hq hfollows
  have hle := length_le_of_isChain hsteps hchain
  rwa [hp] at hle

/-- **A chain takes as many steps as it has records**, however its records are given steps in
order. -/
theorem length_le_card_image {rs : List (Record α)} {step : ℕ → ℕ}
    (hstep : ∀ i j, Follows rs i j → step i < step j) {is : List ℕ} {i : ℕ} (hi : i < rs.length)
    (h : (is ++ [i]).IsChain (Follows rs)) :
    is.length + 1 ≤ ((Finset.range rs.length).image step).card := by
  have hsteps : ((is ++ [i]).map step).Pairwise (· < ·) :=
    ((List.isChain_map step).2 (h.imp fun i j => hstep i j)).pairwise
  have horder : (is ++ [i]).Pairwise (· < ·) := (h.imp fun _ _ hij => hij.1).pairwise
  have hrange : ∀ j ∈ is ++ [i], j < rs.length := by
    intro j hj
    rcases List.mem_append.1 hj with hj | hj
    · exact ((List.pairwise_append.1 horder).2.2 j hj i (List.mem_singleton_self i)).trans hi
    · rwa [List.mem_singleton.1 hj]
  have hsubset : ((is ++ [i]).map step).toFinset ⊆ (Finset.range rs.length).image step := by
    intro k hk
    obtain ⟨j, hj, rfl⟩ := List.mem_map.1 (List.mem_toFinset.1 hk)
    exact Finset.mem_image_of_mem step (Finset.mem_range.2 (hrange j hj))
  have hcard := Finset.card_le_card hsubset
  rw [List.toFinset_card_of_nodup (hsteps.imp fun hlt => hlt.ne)] at hcard
  simpa using hcard

end Earliest

/-! ### Runs -/

/-- A run of additions to the first state, with the step that each record is given by the state it
is added to. -/
inductive Logged {σ ρ ε : Type} (add : σ → ρ → Except ε σ) (step : σ → ρ → ℕ) (first : σ) :
    List (ρ × ℕ) → σ → Prop
  | nil : Logged add step first [] first
  | append {ps : List (ρ × ℕ)} {s s' : σ} {r : ρ} (h : Logged add step first ps s)
      (hadd : add s r = .ok s') : Logged add step first (ps ++ [(r, step s r)]) s'

theorem exists_logged {σ ρ ε : Type} {add : σ → ρ → Except ε σ} (step : σ → ρ → ℕ) {first s : σ}
    {rs : List ρ} (h : rs.foldlM add first = .ok s) :
    ∃ ps, ps.map Prod.fst = rs ∧ Logged add step first ps s := by
  induction rs using List.reverseRecOn generalizing s with
  | nil =>
    obtain rfl := Except.ok.inj h
    exact ⟨[], rfl, .nil⟩
  | append_singleton rs r ih =>
    rw [List.foldlM_append] at h
    obtain ⟨s₁, hs₁, h⟩ := bind_eq_ok h
    obtain ⟨s₂, hadd, h⟩ := bind_eq_ok h
    obtain rfl := Except.ok.inj h
    obtain ⟨ps, rfl, hlogged⟩ := ih hs₁
    exact ⟨_, List.map_append, hlogged.append hadd⟩

/-- **A run gives earliest steps** and keeps what each addition keeps. -/
theorem Logged.earliest {σ α ε : Type} {add : σ → Record α → Except ε σ} {step : σ → Record α → ℕ}
    {first s : σ} {ps : List (Record α × ℕ)} (holds : σ → List (Record α × ℕ) → Prop)
    (hfirst : holds first [])
    (hadd : ∀ s s' ps r, holds s ps → add s r = .ok s' →
      IsEarliest ps r (step s r) ∧ holds s' (ps ++ [(r, step s r)]))
    (h : Logged add step first ps s) : Earliest ps ∧ holds s ps := by
  induction h with
  | nil => exact ⟨.nil, hfirst⟩
  | append _ hr ih =>
    obtain ⟨hearliest, hholds⟩ := hadd _ _ _ _ ih.2 hr
    exact ⟨ih.1.append hearliest, hholds⟩

end CircuitExchange
