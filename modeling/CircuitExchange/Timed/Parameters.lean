/-!
Named parameters. They are kept in the order of their names, and a name stands for one value: the
order of the list is part of the structure.

* `pairwise_insertParameter`: insertion keeps the order.
* `Parameters.insert`: a parameter added or given another value.
-/

namespace CircuitExchange

variable {α : Type}

/-- Names in order with their values, with one more or with another value for one of them. -/
def insertParameter (key : String) (value : α) : List (String × α) → List (String × α)
  | [] => [(key, value)]
  | (k, v) :: rest =>
    if key < k then (key, value) :: (k, v) :: rest
    else if key = k then (key, value) :: rest
    else (k, v) :: insertParameter key value rest

theorem mem_insertParameter {key : String} {value : α} {entries : List (String × α)}
    {p : String × α} (h : p ∈ insertParameter key value entries) :
    p = (key, value) ∨ p ∈ entries := by
  induction entries with
  | nil => exact .inl (List.mem_singleton.1 h)
  | cons a rest ih =>
    rw [insertParameter] at h
    split at h
    · exact List.mem_cons.1 h
    · split at h
      · exact (List.mem_cons.1 h).imp_right (List.mem_cons_of_mem _)
      · rcases List.mem_cons.1 h with rfl | h
        · exact .inr (List.mem_cons_self ..)
        · exact (ih h).imp_right (List.mem_cons_of_mem _)

/-- A parameter that is set keeps the names in order. -/
theorem pairwise_insertParameter (key : String) (value : α) {entries : List (String × α)}
    (h : entries.Pairwise fun p p' => p.1 < p'.1) :
    (insertParameter key value entries).Pairwise fun p p' => p.1 < p'.1 := by
  induction entries with
  | nil => exact List.pairwise_singleton ..
  | cons p rest ih =>
    obtain ⟨hp, hrest⟩ := List.pairwise_cons.1 h
    rw [insertParameter]
    split
    · have hlt : key < p.1 := ‹_›
      refine List.pairwise_cons.2 ⟨List.forall_mem_cons.2 ⟨hlt, fun p' hp' => ?_⟩, h⟩
      exact String.lt_trans hlt (hp p' hp')
    · split
      · have heq : key = p.1 := ‹_›
        exact List.pairwise_cons.2 ⟨fun p' hp' => heq ▸ hp p' hp', hrest⟩
      · have hlt : p.1 < key := Std.lt_of_le_of_ne (String.not_lt.1 ‹_›) (Ne.symm ‹_›)
        refine List.pairwise_cons.2 ⟨fun p' hp' => ?_, ih hrest⟩
        rcases mem_insertParameter hp' with rfl | hp'
        · exact hlt
        · exact hp p' hp'

/-- Values under names, in the order of the names, which are all different. -/
@[ext]
structure Parameters (α : Type) where
  entries : List (String × α)
  sorted : entries.Pairwise fun p p' => p.1 < p'.1
deriving DecidableEq, Repr

namespace Parameters

def empty : Parameters α := ⟨[], .nil⟩

/-- One parameter. -/
def single (key : String) (value : α) : Parameters α := ⟨[(key, value)], List.pairwise_singleton ..⟩

/-- The parameters with one added or given another value. -/
def insert (p : Parameters α) (key : String) (value : α) : Parameters α :=
  ⟨insertParameter key value p.entries, pairwise_insertParameter key value p.sorted⟩

@[simp]
theorem entries_insert (p : Parameters α) (key : String) (value : α) :
    (p.insert key value).entries = insertParameter key value p.entries := rfl

/-- The value under a name. -/
def lookup? (p : Parameters α) (key : String) : Option α := p.entries.lookup key

@[simp]
theorem lookup?_single (key : String) (value : α) :
    (single key value).lookup? key = some value := by
  rw [lookup?, single, List.lookup_cons_self]

end Parameters

end CircuitExchange
