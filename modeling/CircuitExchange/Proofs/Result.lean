import Mathlib

/-!
Results that may be errors: what a successful computation has gone through, and what is left when
the error is forgotten.

* `bind_eq_ok`, `map_eq_ok`, `mapError_eq_ok`: the steps of a successful computation.
* `run_bind`: the steps of a computation that changes a state.
* `mapM_eq_ok_iff`, `mapM_append_eq_error`: lists of computations that succeed, and the first error.
* `exists_first_not`, `foldlM_eq_error`: the first entry at fault, and runs that end with its error.
* `mapM_filter_flatten`, `exists_foldlM_ok`: computations that give nothing, and runs that succeed.
* `exists_mem_of_forall₂`, `forall_mem_iff_of_forall₂`: lists that are related entry by entry.
* `toOption_bind`, `toOption_map`, `toOption_mapError`: results without their errors.
-/

namespace CircuitExchange

variable {ε α β : Type}

theorem ok_bind (a : α) (f : α → Except ε β) : (Except.ok a >>= f) = f a := rfl

theorem bind_eq_ok {r : Except ε α} {f : α → Except ε β} {b : β} (h : r >>= f = .ok b) :
    ∃ a, r = .ok a ∧ f a = .ok b := by
  cases r with
  | error e => cases h
  | ok a => exact ⟨a, rfl, h⟩

theorem mapError_eq_ok {ε' : Type} {r : Except ε α} {f : ε → ε'} {a : α}
    (h : r.mapError f = .ok a) : r = .ok a := by
  cases r with
  | error e => cases h
  | ok b => exact congrArg Except.ok (Except.ok.inj h)

theorem mapError_eq_error_iff {ε' : Type} {r : Except ε α} {f : ε → ε'} {e' : ε'} :
    r.mapError f = .error e' ↔ ∃ e, r = .error e ∧ f e = e' := by
  cases r <;> simp [Except.mapError]

theorem map_eq_ok {r : Except ε α} {f : α → β} {b : β} (h : r.map f = .ok b) :
    ∃ a, r = .ok a ∧ f a = b := by
  cases r with
  | error e => cases h
  | ok a => exact ⟨a, rfl, Except.ok.inj h⟩

theorem toOption_map (r : Except ε α) (f : α → β) : (r.map f).toOption = r.toOption.map f := by
  cases r <;> rfl

theorem toOption_bind (r : Except ε α) (f : α → Except ε β) :
    (r >>= f).toOption = r.toOption.bind fun a => (f a).toOption := by
  cases r <;> rfl

theorem toOption_mapError {ε' : Type} (r : Except ε α) (f : ε → ε') :
    (r.mapError f).toOption = r.toOption := by
  cases r <;> rfl

theorem toOption_eq_some {r : Except ε α} {a : α} (h : r.toOption = some a) : r = .ok a := by
  cases r with
  | error e => cases h
  | ok b => exact congrArg Except.ok (Option.some.inj h)

/-- A computation that changes a state and may fail goes on from the state that it has changed. -/
theorem run_bind {σ : Type} (x : ExceptT ε (StateM σ) α) (f : α → ExceptT ε (StateM σ) β) (s : σ) :
    (x >>= f).run.run s =
      match x.run.run s with
      | (.ok a, s') => (f a).run.run s'
      | (.error e, s') => (.error e, s') := by
  change (match x.run.run s with
    | (result, s') => (ExceptT.bindCont f result).run s') = _
  rcases x.run.run s with ⟨_ | _, _⟩ <;> rfl

/-- What is related entry by entry has for each entry one that it is related to. -/
theorem exists_mem_of_forall₂ {R : α → β → Prop} {as : List α} {bs : List β}
    (h : List.Forall₂ R as bs) {b : β} (hb : b ∈ bs) : ∃ a ∈ as, R a b := by
  induction h with
  | nil => cases hb
  | cons hab _ ih =>
    rcases List.mem_cons.1 hb with rfl | hb
    · exact ⟨_, List.mem_cons_self .., hab⟩
    · obtain ⟨a, ha, hR⟩ := ih hb
      exact ⟨a, List.mem_cons_of_mem _ ha, hR⟩

/-- All entries of related lists share the properties that related entries share. -/
theorem forall_mem_iff_of_forall₂ {R : α → β → Prop} {P : α → Prop} {Q : β → Prop} {as : List α}
    {bs : List β} (h : List.Forall₂ R as bs) (hR : ∀ {a b}, R a b → (P a ↔ Q b)) :
    (∀ a ∈ as, P a) ↔ ∀ b ∈ bs, Q b := by
  induction h with
  | nil => simp
  | cons hab _ ih => rw [List.forall_mem_cons, List.forall_mem_cons, hR hab, ih]

/-- A list of computations loses nothing with those that give nothing. -/
theorem mapM_filter_flatten {f : α → Except ε (List β)} {keep : α → Bool} {as : List α}
    (h : ∀ a ∈ as, keep a = false → f a = .ok []) :
    ((as.filter keep).mapM f).map List.flatten = (as.mapM f).map List.flatten := by
  induction as with
  | nil => rfl
  | cons a as ih =>
    obtain ⟨ha, has⟩ := List.forall_mem_cons.1 h
    have hcons : ∀ as : List α, ((a :: as).mapM f).map List.flatten =
        f a >>= fun bs => ((as.mapM f).map List.flatten).map (bs ++ ·) := by
      intro as
      rw [List.mapM_cons]
      cases f a with
      | error e => rfl
      | ok bs => cases as.mapM f <;> rfl
    cases hkeep : keep a with
    | true => rw [List.filter_cons_of_pos hkeep, hcons, hcons, ih has]
    | false =>
      rw [List.filter_cons_of_neg (Bool.eq_false_iff.1 hkeep), ih has, hcons, ha hkeep, ok_bind]
      cases (as.mapM f).map List.flatten <;> rfl

/-- A list of computations succeeds if each of them does. -/
theorem mapM_eq_ok_iff {f : α → Except ε β} {as : List α} {bs : List β} :
    as.mapM f = .ok bs ↔ List.Forall₂ (fun a b => f a = .ok b) as bs := by
  induction as generalizing bs with
  | nil =>
    constructor
    · intro h
      obtain rfl := Except.ok.inj h
      exact .nil
    · rintro ⟨⟩
      rfl
  | cons a as ih =>
    constructor
    · intro h
      rw [List.mapM_cons] at h
      obtain ⟨b, hb, h⟩ := bind_eq_ok h
      obtain ⟨bs', hbs, h⟩ := bind_eq_ok h
      obtain rfl := Except.ok.inj h
      exact .cons hb (ih.1 hbs)
    · rintro (_ | ⟨hb, hbs⟩)
      rw [List.mapM_cons, hb, ih.2 hbs]
      rfl

/-- The error of a list of results is the first one. -/
theorem mapM_id_eq_error_iff {rs : List (Except ε α)} {e : ε} :
    rs.mapM id = .error e ↔ ∃ (as : List α) (later : List (Except ε α)),
      rs = as.map .ok ++ .error e :: later := by
  induction rs with
  | nil => simp [pure, Except.pure]
  | cons r rs ih =>
    rw [List.mapM_cons]
    cases r with
    | error e' =>
      constructor
      · rintro ⟨⟩
        exact ⟨[], rs, rfl⟩
      · rintro ⟨as, later, h⟩
        cases as with
        | nil =>
          obtain rfl := Except.error.inj (List.cons.inj h).1
          rfl
        | cons a as => cases (List.cons.inj h).1
    | ok a =>
      have hrs : (do let a ← id (Except.ok a); let as ← rs.mapM id; return a :: as) =
          (.error e : Except ε (List α)) ↔ rs.mapM id = .error e := by
        cases rs.mapM id <;> simp [bind, Except.bind, pure, Except.pure]
      rw [hrs, ih]
      constructor
      · rintro ⟨as, later, rfl⟩
        exact ⟨a :: as, later, rfl⟩
      · rintro ⟨_ | ⟨a', as⟩, later, h⟩
        · cases (List.cons.inj h).1
        · exact ⟨as, later, (List.cons.inj h).2⟩

/-- A list of computations has the error of the first one that fails. -/
theorem mapM_append_eq_error {f : α → Except ε β} {pre post : List α} {a : α} {e : ε}
    (hpre : ∀ a ∈ pre, ∃ b, f a = .ok b) (ha : f a = .error e) :
    (pre ++ a :: post).mapM f = .error e := by
  induction pre with
  | nil =>
    rw [List.nil_append, List.mapM_cons, ha]
    rfl
  | cons a' pre ih =>
    obtain ⟨⟨b, hb⟩, hpre⟩ := List.forall_mem_cons.1 hpre
    rw [List.cons_append, List.mapM_cons, hb, ih hpre]
    rfl

/-- If not all entries have a property there is a first one that does not. -/
theorem exists_first_not {P : α → Prop} {as : List α} (h : ¬ ∀ a ∈ as, P a) :
    ∃ pre a post, as = pre ++ a :: post ∧ (∀ a ∈ pre, P a) ∧ ¬ P a := by
  induction as with
  | nil => exact absurd (fun _ ha => absurd ha List.not_mem_nil) h
  | cons a as ih =>
    by_cases ha : P a
    · obtain ⟨pre, a', post, rfl, hpre, ha'⟩ := ih fun has =>
        h (List.forall_mem_cons.2 ⟨ha, has⟩)
      exact ⟨a :: pre, a', post, rfl, List.forall_mem_cons.2 ⟨ha, hpre⟩, ha'⟩
    · exact ⟨[], a, as, rfl, by simp, ha⟩

/-- A list of computations that do not all succeed has a first one that fails. -/
theorem exists_first_error {f : α → Except ε β} {as : List α} (h : ¬ ∀ a ∈ as, ∃ b, f a = .ok b) :
    ∃ pre a post e, as = pre ++ a :: post ∧ (∀ a ∈ pre, ∃ b, f a = .ok b) ∧ f a = .error e := by
  obtain ⟨pre, a, post, heq, hpre, ha⟩ := exists_first_not h
  cases hresult : f a with
  | ok b => exact absurd ⟨b, hresult⟩ ha
  | error e => exact ⟨pre, a, post, e, heq, hpre, hresult⟩

/-- A run of steps that succeed on every state reaches a last one. -/
theorem exists_foldlM_ok {σ : Type} {f : σ → α → Except ε σ} {as : List α}
    (h : ∀ a ∈ as, ∀ s, ∃ s', f s a = .ok s') (s : σ) : ∃ s', as.foldlM f s = .ok s' := by
  induction as generalizing s with
  | nil => exact ⟨s, rfl⟩
  | cons a as ih =>
    obtain ⟨ha, has⟩ := List.forall_mem_cons.1 h
    obtain ⟨s₁, hs₁⟩ := ha s
    rw [List.foldlM_cons, hs₁, ok_bind]
    exact ih has s₁

/-- A run ends with the error of the first step that fails. -/
theorem foldlM_eq_error {σ : Type} {f : σ → α → Except ε σ} {s s' : σ} {pre post : List α} {a : α}
    {e : ε} (hpre : pre.foldlM f s = .ok s') (ha : f s' a = .error e) :
    (pre ++ a :: post).foldlM f s = .error e := by
  rw [List.foldlM_append, hpre, ok_bind, List.foldlM_cons, ha]
  rfl

/-- A list of computations that succeed under a condition gives the list of their results. -/
theorem mapM_eq_ok_iff_map {f : α → Except ε β} {P : α → Prop} {g : α → β}
    (hf : ∀ a b, f a = .ok b ↔ P a ∧ g a = b) {as : List α} {bs : List β} :
    as.mapM f = .ok bs ↔ (∀ a ∈ as, P a) ∧ as.map g = bs := by
  rw [mapM_eq_ok_iff]
  induction as generalizing bs with
  | nil => simp [eq_comm]
  | cons a as ih =>
    rw [List.forall₂_cons_left_iff]
    constructor
    · rintro ⟨b, bs, hb, hbs, rfl⟩
      obtain ⟨ha, rfl⟩ := (hf a b).1 hb
      obtain ⟨has, rfl⟩ := ih.1 hbs
      exact ⟨List.forall_mem_cons.2 ⟨ha, has⟩, rfl⟩
    · rintro ⟨hall, rfl⟩
      obtain ⟨ha, has⟩ := List.forall_mem_cons.1 hall
      exact ⟨_, _, (hf a _).2 ⟨ha, rfl⟩, ih.2 ⟨has, rfl⟩, rfl⟩

/-- What is related to the entries of one list is related by these entries. -/
theorem forall₂_of_common {ρ : Type} {R : ρ → α → Prop} {S : ρ → β → Prop} {rs : List ρ}
    {as : List α} {bs : List β} (h : List.Forall₂ R rs as) (h' : List.Forall₂ S rs bs) :
    List.Forall₂ (fun a b => ∃ r, R r a ∧ S r b) as bs := by
  induction h generalizing bs with
  | nil =>
    cases h'
    exact .nil
  | cons ha _ ih =>
    cases h' with
    | cons hb hbs => exact .cons ⟨_, ha, hb⟩ (ih hbs)

theorem map_eq_map_of_forall₂ {γ : Type} {f : α → γ} {g : β → γ} {as : List α} {bs : List β}
    (h : List.Forall₂ (fun a b => f a = g b) as bs) : as.map f = bs.map g := by
  induction h with
  | nil => rfl
  | cons hab _ ih => rw [List.map_cons, List.map_cons, hab, ih]

theorem filterMap_eq_of_forall₂ {f : α → Option β} {as : List α} {bs : List β}
    (h : List.Forall₂ (fun a b => f a = some b) as bs) : as.filterMap f = bs := by
  induction h with
  | nil => rfl
  | cons hab _ ih => rw [List.filterMap_cons_some hab, ih]

/-- Two computations may be exchanged if each of them succeeds on the same states before and after
the other one, and their results commute. -/
theorem toOption_bind_comm {f g : α → Except ε α} {P Q : α → Prop} {F G : α → α}
    (hf : ∀ a b, f a = .ok b ↔ P a ∧ F a = b) (hg : ∀ a b, g a = .ok b ↔ Q a ∧ G a = b) {a : α}
    (hP : P (G a) ↔ P a) (hQ : Q (F a) ↔ Q a) (hcomm : P a → Q a → G (F a) = F (G a)) :
    (f a >>= g).toOption = (g a >>= f).toOption := by
  have hsome : ∀ {r : Except ε α} {b : α}, r.toOption = some b ↔ r = .ok b := fun {r b} =>
    ⟨toOption_eq_some, fun h => by rw [h]; rfl⟩
  refine Option.ext fun b => ?_
  rw [hsome, hsome]
  constructor
  · intro h
    obtain ⟨c, hc, h⟩ := bind_eq_ok h
    obtain ⟨hPa, rfl⟩ := (hf a c).1 hc
    obtain ⟨hQa, rfl⟩ := (hg _ b).1 h
    rw [(hg a _).2 ⟨hQ.1 hQa, rfl⟩]
    exact (hf _ _).2 ⟨hP.2 hPa, (hcomm hPa (hQ.1 hQa)).symm⟩
  · intro h
    obtain ⟨c, hc, h⟩ := bind_eq_ok h
    obtain ⟨hQa, rfl⟩ := (hg a c).1 hc
    obtain ⟨hPa, rfl⟩ := (hf _ b).1 h
    rw [(hf a _).2 ⟨hP.1 hPa, rfl⟩]
    exact (hg _ _).2 ⟨hQ.2 hQa, hcomm (hP.1 hPa) hQa⟩

end CircuitExchange
