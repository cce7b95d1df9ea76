import Mathlib

/-!
Lists up to exchanging neighbours that are apart, such as gates without a common qubit.

* `Reordered`: exchanging neighbours, any number of times.
* `Reordered.append_singleton`: an entry moves to the left over entries that it is apart from.
* `Reordered.filterMap`: what is kept of exchanged entries is exchanged.
* `OrderKept`: a list has the entries of another one, and entries that are not apart stand in the
  same order in both.
* `Reordered.orderKept`: exchanges keep the order.
-/

namespace CircuitExchange

/-- The second list is the first one after exchanging neighbours that are apart. -/
inductive Reordered {β : Type} (apart : β → β → Prop) : List β → List β → Prop
  | nil : Reordered apart [] []
  | cons (b : β) {l l' : List β} : Reordered apart l l' → Reordered apart (b :: l) (b :: l')
  | swap {a b : β} (l : List β) : apart a b → Reordered apart (a :: b :: l) (b :: a :: l)
  | trans {l l' l'' : List β} :
      Reordered apart l l' → Reordered apart l' l'' → Reordered apart l l''

namespace Reordered

variable {β γ : Type} {apart : β → β → Prop} {l l' : List β}

theorem refl (l : List β) : Reordered apart l l := by
  induction l with
  | nil => exact .nil
  | cons b l ih => exact .cons b ih

theorem perm (h : Reordered apart l l') : l.Perm l' := by
  induction h with
  | nil => exact .nil
  | cons b _ ih => exact .cons b ih
  | swap l _ => exact .swap ..
  | trans _ _ ih ih' => exact .trans ih ih'

theorem symm (hsymm : ∀ a b, apart a b → apart b a) (h : Reordered apart l l') :
    Reordered apart l' l := by
  induction h with
  | nil => exact .nil
  | cons b _ ih => exact .cons b ih
  | swap l hab => exact .swap l (hsymm _ _ hab)
  | trans _ _ ih ih' => exact .trans ih' ih

theorem append_left (l₀ : List β) (h : Reordered apart l l') :
    Reordered apart (l₀ ++ l) (l₀ ++ l') := by
  induction l₀ with
  | nil => exact h
  | cons b l₀ ih => exact .cons b ih

theorem append_right (h : Reordered apart l l') (l₀ : List β) :
    Reordered apart (l ++ l₀) (l' ++ l₀) := by
  induction h with
  | nil => exact refl l₀
  | cons b _ ih => exact .cons b ih
  | swap l hab => exact .swap (l ++ l₀) hab
  | trans _ _ ih ih' => exact ih.trans ih'

/-- The last entry moves to the left over entries that it is apart from. -/
theorem append_singleton {b : β} {l₁ l₂ : List β} (h : ∀ a ∈ l₂, apart a b) :
    Reordered apart (l₁ ++ l₂ ++ [b]) (l₁ ++ b :: l₂) := by
  rw [List.append_assoc]
  refine append_left l₁ ?_
  induction l₂ with
  | nil => exact refl [b]
  | cons a l₂ ih =>
    have hmove := ih fun c hc => h c (List.mem_cons_of_mem a hc)
    exact (hmove.cons a).trans (.swap l₂ (h a (List.mem_cons_self ..)))

/-- Exchanges are carried over by a map that keeps entries apart. -/
theorem map {apart' : γ → γ → Prop} {f : β → γ} (hf : ∀ a b, apart a b → apart' (f a) (f b))
    (h : Reordered apart l l') : Reordered apart' (l.map f) (l'.map f) := by
  induction h with
  | nil => exact .nil
  | cons b _ ih => exact .cons (f b) ih
  | swap l hab => exact .swap (l.map f) (hf _ _ hab)
  | trans _ _ ih ih' => exact ih.trans ih'

/-- Exchanges are carried over to what is kept, by a map that keeps entries apart. -/
theorem filterMap {apart' : γ → γ → Prop} {f : β → Option γ}
    (hf : ∀ a b c d, f a = some c → f b = some d → apart a b → apart' c d)
    (h : Reordered apart l l') : Reordered apart' (l.filterMap f) (l'.filterMap f) := by
  induction h with
  | nil => exact .nil
  | @cons b l l' _ ih =>
    cases hb : f b with
    | none => rwa [List.filterMap_cons_none hb, List.filterMap_cons_none hb]
    | some c =>
      rw [List.filterMap_cons_some hb, List.filterMap_cons_some hb]
      exact .cons c ih
  | @swap a b l hab =>
    cases ha : f a with
    | none =>
      simp only [List.filterMap_cons, ha]
      exact refl _
    | some c =>
      cases hb : f b with
      | none =>
        simp only [List.filterMap_cons, ha, hb]
        exact refl _
      | some d =>
        simp only [List.filterMap_cons, ha, hb]
        exact .swap _ (hf _ _ _ _ ha hb hab)
  | trans _ _ ih ih' => exact ih.trans ih'

/-- Exchanges of images are images of exchanges. -/
theorem exists_map {f : γ → β} {ps : List γ} (h : Reordered apart (ps.map f) l') :
    ∃ ps', Reordered (fun p q => apart (f p) (f q)) ps ps' ∧ l' = ps'.map f := by
  generalize hl : ps.map f = l at h
  induction h generalizing ps with
  | nil => exact ⟨ps, refl ps, hl.symm⟩
  | cons b _ ih =>
    obtain ⟨p, ps, rfl, rfl, hps⟩ := List.map_eq_cons_iff.1 hl
    obtain ⟨ps', hps', rfl⟩ := ih hps
    exact ⟨p :: ps', hps'.cons p, rfl⟩
  | swap l hab =>
    obtain ⟨p, ps, rfl, rfl, hps⟩ := List.map_eq_cons_iff.1 hl
    obtain ⟨q, ps, rfl, rfl, rfl⟩ := List.map_eq_cons_iff.1 hps
    exact ⟨q :: p :: ps, .swap ps hab, rfl⟩
  | trans _ _ ih ih' =>
    obtain ⟨ps', hps', rfl⟩ := ih hl
    obtain ⟨ps'', hps'', rfl⟩ := ih' rfl
    exact ⟨ps'', hps'.trans hps'', rfl⟩

/-- A relation that entries have unless they are apart survives exchanges. -/
theorem pairwise {R : β → β → Prop} (hsymm : ∀ a b, apart a b → apart b a)
    (h : Reordered apart l l') (hl : l.Pairwise fun a b => ¬ apart a b → R a b) :
    l'.Pairwise fun a b => ¬ apart a b → R a b := by
  induction h with
  | nil => exact hl
  | cons b hperm ih =>
    obtain ⟨hb, hl⟩ := List.pairwise_cons.1 hl
    exact List.pairwise_cons.2 ⟨fun a ha => hb a (hperm.perm.mem_iff.2 ha), ih hl⟩
  | @swap a b l hab =>
    obtain ⟨ha, hl⟩ := List.pairwise_cons.1 hl
    obtain ⟨hb, hl⟩ := List.pairwise_cons.1 hl
    refine List.pairwise_cons.2 ⟨fun c hc => ?_, List.pairwise_cons.2 ⟨fun c hc => ?_, hl⟩⟩
    · rcases List.mem_cons.1 hc with rfl | hc
      · exact fun hba => absurd (hsymm _ _ hab) hba
      · exact hb c hc
    · exact ha c (List.mem_cons_of_mem b hc)
  | trans _ _ ih ih' => exact ih' (ih hl)

end Reordered

/-- The second list holds what the first one holds, each entry stored once, and entries that are not
apart are stored in the same order. -/
def OrderKept {β γ : Type} (apart : β → β → Prop) (stores : β → γ → Prop) (l : List β)
    (l' : List γ) : Prop :=
  ∃ positions : List (Fin l.length), positions.Perm (List.finRange l.length) ∧
    List.Forall₂ (fun i c => stores l[i] c) positions l' ∧
    positions.Pairwise fun i j => ¬ apart l[i] l[j] → i < j

namespace Reordered

variable {β γ : Type} {apart : β → β → Prop} {stores : β → γ → Prop} {l k : List β}

/-- Exchanges of what is stored are exchanges of what it stands for. -/
theorem exists_forall₂ {apart' : γ → γ → Prop}
    (hstores : ∀ a b c d, stores a c → stores b d → apart' c d → apart a b) {l₀ l' : List γ}
    (hl : List.Forall₂ stores l l₀) (h : Reordered apart' l₀ l') :
    ∃ k, Reordered apart l k ∧ List.Forall₂ stores k l' := by
  induction h generalizing l with
  | nil => exact ⟨l, refl l, hl⟩
  | cons d _ ih =>
    obtain ⟨a, l₁, ha, hl₁, rfl⟩ := List.forall₂_cons_right_iff.1 hl
    obtain ⟨k, hk, hstored⟩ := ih hl₁
    exact ⟨a :: k, hk.cons a, .cons ha hstored⟩
  | swap _ hcd =>
    obtain ⟨a, l₁, ha, hl₁, rfl⟩ := List.forall₂_cons_right_iff.1 hl
    obtain ⟨b, l₂, hb, hl₂, rfl⟩ := List.forall₂_cons_right_iff.1 hl₁
    exact ⟨b :: a :: l₂, .swap l₂ (hstores _ _ _ _ ha hb hcd), .cons hb (.cons ha hl₂)⟩
  | trans _ _ ih ih' =>
    obtain ⟨k, hk, hstored⟩ := ih hl
    obtain ⟨k', hk', hstored'⟩ := ih' hstored
    exact ⟨k', hk.trans hk', hstored'⟩

/-- **Exchanges keep the order**: what is reordered and then stored is stored in order. -/
theorem orderKept (hsymm : ∀ a b, apart a b → apart b a) (h : Reordered apart l k) {l' : List γ}
    (hstored : List.Forall₂ stores k l') : OrderKept apart stores l l' := by
  -- every entry carries its position through the exchanges
  have hpositions : (List.finRange l.length).map (fun i => l[i]) = l := List.map_getElem_finRange l
  rw [← hpositions] at h
  obtain ⟨positions, hreordered, rfl⟩ := h.exists_map
  refine ⟨positions, hreordered.perm.symm, List.forall₂_map_left_iff.1 hstored, ?_⟩
  refine hreordered.pairwise (fun i j hij => hsymm _ _ hij) ?_
  refine (List.pairwise_lt_finRange l.length).imp ?_
  intro i j hij _
  exact hij

end Reordered

end CircuitExchange
