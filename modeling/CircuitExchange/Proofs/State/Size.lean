import Mathlib
import CircuitExchange.Circuit
import CircuitExchange.State.Vector
import CircuitExchange.Proofs.Order.Acceptance

/-!
The register that a list of records implies. Its size is kept in a number that cannot grow beyond
its largest value, which matters for no register that is simulated.

* `impliedQubitCount_le_iff`: the size is the least one above all indices.
* `toNat_next`: in a register of admissible size every index is counted exactly.
-/

namespace CircuitExchange

section Sizes

variable {α : Type}

theorem impliedQubitCount_le_iff {qs : List Qubit} {n : UInt32} :
    impliedQubitCount qs ≤ n ↔ ∀ q ∈ qs, Qubit.next q ≤ n := by
  rw [impliedQubitCount, foldl_max_le_iff UInt32.max_def]
  exact and_iff_right UInt32.zero_le

theorem impliedQubitCount_perm {qs qs' : List Qubit} (h : qs.Perm qs') :
    impliedQubitCount qs = impliedQubitCount qs' := by
  apply UInt32.le_antisymm
  · exact impliedQubitCount_le_iff.2 fun q hq =>
      impliedQubitCount_le_iff.1 (UInt32.le_refl _) q (h.mem_iff.1 hq)
  · exact impliedQubitCount_le_iff.2 fun q hq =>
      impliedQubitCount_le_iff.1 (UInt32.le_refl _) q (h.mem_iff.2 hq)

theorem Circuit.sizeOf_perm {rs rs' : List (Record α)} (h : rs.Perm rs') :
    Circuit.sizeOf rs = Circuit.sizeOf rs' :=
  impliedQubitCount_perm (h.flatMap_right _)

/-- The number above an index, cut off at the largest number. -/
theorem toNat_next_eq (q : Qubit) : (Qubit.next q).toNat = min (q.toNat + 1) (2 ^ 32 - 1) := by
  have hlt := q.toNat_lt
  rw [Qubit.next]
  split
  · rename_i hmax
    rw [hmax]
    rfl
  · rename_i hne
    have hlast : q.toNat ≠ 2 ^ 32 - 1 := fun heq => hne (UInt32.toNat_inj.1 heq)
    rw [UInt32.toNat_add, UInt32.toNat_one]
    omega

/-- In a register of admissible size no index is the largest number. -/
theorem toNat_next {qs : List Qubit} (h : (impliedQubitCount qs).toNat ≤ maxQubits) {q : Qubit}
    (hq : q ∈ qs) : (Qubit.next q).toNat = q.toNat + 1 ∧
      q.toNat < (impliedQubitCount qs).toNat := by
  have hle := UInt32.le_iff_toNat_le.1 (impliedQubitCount_le_iff.1 (UInt32.le_refl _) q hq)
  have hnext := toNat_next_eq q
  have hsmall : maxQubits < 2 ^ 32 - 1 := by decide
  omega

/-- The size is the largest qubit and one, cut off at the largest number. -/
theorem toNat_impliedQubitCount (qs : List Qubit) : (impliedQubitCount qs).toNat =
    min (qs.foldl (fun n q => max n (q.toNat + 1)) 0) (2 ^ 32 - 1) := by
  have hfold : ∀ (count : UInt32) (n : Nat), count.toNat = min n (2 ^ 32 - 1) →
      (qs.foldl (fun count q => max count (Qubit.next q)) count).toNat =
        min (qs.foldl (fun n q => max n (q.toNat + 1)) n) (2 ^ 32 - 1) := by
    induction qs with
    | nil => exact fun _ _ h => h
    | cons q qs ih =>
      intro count n h
      refine ih _ _ ?_
      have hnext := toNat_next_eq q
      change (max count (Qubit.next q)).toNat = min (max n (q.toNat + 1)) (2 ^ 32 - 1)
      rw [UInt32.max_def]
      split
      all_goals
        rename_i hle
        rw [UInt32.le_iff_toNat_le] at hle
        omega
  exact hfold 0 0 rfl

/-- The largest qubit and one, counted without a bound. -/
theorem foldl_max_eq {qs : List Qubit} (h : (impliedQubitCount qs).toNat ≤ maxQubits) :
    qs.foldl (fun n q => max n (q.toNat + 1)) 0 = (impliedQubitCount qs).toNat := by
  have hcount := toNat_impliedQubitCount qs
  have hsmall : maxQubits < 2 ^ 32 - 1 := by decide
  omega

theorem Circuit.sizeOf_mapAngles {β : Type} (f : α → β) (rs : List (Record α)) :
    Circuit.sizeOf (rs.map (Record.mapAngles f)) = Circuit.sizeOf rs := by
  rw [Circuit.sizeOf, List.flatMap_map]
  rfl

end Sizes

end CircuitExchange
