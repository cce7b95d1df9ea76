import Mathlib
import CircuitExchange.Document.Basic
import CircuitExchange.Proofs.Result
import CircuitExchange.Proofs.State.Run

/-!
Distributions. A distribution lists the indices whose probability is above the threshold, in
increasing order, and writes each of them in binary with one character for every qubit.

* `toList_outcomeBits`: the bits of an outcome are the binary digits of its index.
* `binary_lt`: binary texts of one length are ordered like the numbers they stand for.
* `Distribution.lists_ofProbabilities`: the outcomes that are made from a list of probabilities.
* `trailingZeros_two_pow`: how the number of qubits is told from the number of probabilities.
* `statevector_eq_ok`: the state a document is run to, and the order of bits it is run in.
* `distribution_reads_correctly`: what the reported outcomes say.
-/

namespace CircuitExchange

/-! ### Binary texts -/

/-- The lowest `n` bits of a number in characters, the highest of them first. -/
def binary (i : Nat) : Nat → List Char
  | 0 => []
  | n + 1 => (if i.testBit n then '1' else '0') :: binary i n

section Binary

variable {i j n q : Nat}

@[simp]
theorem length_binary (i n : Nat) : (binary i n).length = n := by
  induction n with
  | zero => rfl
  | succ n ih => rw [binary, List.length_cons, ih]

/-- Each character stands for one bit. -/
theorem getElem?_binary (hq : q < n) :
    (binary i n)[q]? = some (if i.testBit (n - 1 - q) then '1' else '0') := by
  induction n generalizing q with
  | zero => exact absurd hq (Nat.not_lt_zero q)
  | succ n ih =>
    cases q with
    | zero => rfl
    | succ q =>
      have hbit : n + 1 - 1 - (q + 1) = n - 1 - q := by omega
      rw [binary, List.getElem?_cons_succ, ih (Nat.lt_of_succ_lt_succ hq), hbit]

example : binary 5 4 = ['0', '1', '0', '1'] := rfl

/-- The last character stands for the lowest bit. -/
theorem binary_succ (i n : Nat) : binary i (n + 1) = binary (i / 2) n ++ [(i % 2).digitChar] := by
  induction n with
  | zero =>
    rw [binary, binary, binary, Nat.testBit_zero]
    rcases Nat.mod_two_eq_zero_or_one i with h | h <;> rw [h] <;> rfl
  | succ n ih => rw [binary, ih, binary, Nat.testBit_div_two, List.cons_append]

@[simp]
theorem binary_zero (n : Nat) : binary 0 n = List.replicate n '0' := by
  induction n with
  | zero => rfl
  | succ n ih => rw [binary, ih, Nat.zero_testBit, List.replicate_succ]; rfl

/-- A text of enough characters is read back as the number. -/
theorem ofDigitChars_binary (h : i < 2 ^ n) : Nat.ofDigitChars 2 (binary i n) 0 = i := by
  induction n generalizing i with
  | zero => exact (Nat.lt_one_iff.1 h).symm
  | succ n ih =>
    have hdigit : ((i % 2).digitChar.toNat - '0'.toNat) = i % 2 := by
      rcases Nat.mod_two_eq_zero_or_one i with h | h <;> rw [h] <;> rfl
    rw [binary_succ, Nat.ofDigitChars_append, ih (by omega), Nat.ofDigitChars_cons, hdigit]
    exact Nat.div_add_mod i 2

/-- Digits that are filled up with zeros. -/
theorem replicate_append_toDigits (hn : 0 < n) (h : i < 2 ^ n) :
    List.replicate (n - (Nat.toDigits 2 i).length) '0' ++ Nat.toDigits 2 i = binary i n := by
  induction n generalizing i with
  | zero => exact absurd hn (Nat.lt_irrefl 0)
  | succ n ih =>
    rw [binary_succ]
    by_cases hi : i < 2
    · rw [Nat.toDigits_of_lt_base hi, Nat.div_eq_of_lt hi, binary_zero, Nat.mod_eq_of_lt hi]
      rfl
    · have hn : 0 < n := by
        rcases Nat.eq_zero_or_pos n with rfl | hn
        · exact absurd h hi
        · exact hn
      rw [Nat.toDigits_of_base_le one_lt_two (Nat.not_lt.1 hi), List.length_append,
        ← List.append_assoc, List.length_singleton, Nat.add_sub_add_right, ih hn (by omega)]

/-- The bits of an outcome are the binary digits of its index. -/
theorem toList_outcomeBits (h : i < 2 ^ n) : (outcomeBits i n).toList = binary i n := by
  rw [outcomeBits]
  split
  case isTrue hn =>
    subst hn
    rfl
  case isFalse hn =>
    rw [bitstring, String.toList_ofList, replicate_append_toDigits (Nat.pos_of_ne_zero hn) h]

/-- Of two numbers the one with the smaller lowest bits has the smaller text. -/
theorem binary_lt (h : i % 2 ^ n < j % 2 ^ n) : binary i n < binary j n := by
  induction n with
  | zero =>
    rw [Nat.pow_zero, Nat.mod_one, Nat.mod_one] at h
    exact absurd h (Nat.lt_irrefl 0)
  | succ n ih =>
    have hi := Nat.mod_lt i (Nat.two_pow_pos n)
    have hj := Nat.mod_lt j (Nat.two_pow_pos n)
    rw [Nat.mod_pow_succ, Nat.mod_pow_succ] at h
    rw [binary, binary, List.cons_lt_cons_iff, Nat.testBit_eq_decide_div_mod_eq,
      Nat.testBit_eq_decide_div_mod_eq]
    rcases Nat.mod_two_eq_zero_or_one (i / 2 ^ n) with hbi | hbi <;>
    rcases Nat.mod_two_eq_zero_or_one (j / 2 ^ n) with hbj | hbj <;>
    rw [hbi, hbj] at h ⊢
    · exact .inr ⟨rfl, ih (by simpa using h)⟩
    · exact .inl (by decide)
    · omega
    · exact .inr ⟨rfl, ih (by simpa using h)⟩

end Binary

/-! ### Lists of probabilities -/

/-- An outcome shows an index of a register with `n` qubits: it has a character for each qubit, the
first one for the highest bit, and is the index in binary. -/
structure Outcome.Shows (o : Outcome) (n i : Nat) : Prop where
  length : o.bits.toList.length = n
  char : ∀ q < n, o.bits.toList[q]? = some (if i.testBit (n - 1 - q) then '1' else '0')
  decoded : Nat.ofDigitChars 2 o.bits.toList 0 = i

/-- A distribution lists the indices of a register with `n` qubits that are more probable than the
threshold, in order, with their probabilities. -/
structure Distribution.Lists (d : Distribution) (n : Nat) (p : List Float) (threshold : Float)
    (indices : List Nat) : Prop where
  qubitCount : d.qubitCount = n
  mem_indices : ∀ i, i ∈ indices ↔ ∃ x, p[i]? = some x ∧ threshold < x
  increasing : indices.Pairwise (· < ·)
  outcomes : List.Forall₂ (fun i o => p[i]? = some o.probability ∧ o.Shows n i) indices d.outcomes
  ordered : (d.outcomes.map Outcome.bits).Pairwise (· < ·)
  nodup : (d.outcomes.map Outcome.bits).Nodup

/-- A power of two ends with as many zeros as its exponent says. -/
theorem trailingZeros_two_pow {n : Nat} (hn : n < 64) : trailingZeros (2 ^ n) = n := by
  have hlt : 2 ^ n < 2 ^ 64 := Nat.pow_lt_pow_right (by decide) hn
  have hne : BitVec.ofNat 64 (2 ^ n) ≠ 0#64 := by
    rw [Ne, BitVec.toNat_eq, BitVec.toNat_ofNat, Nat.mod_eq_of_lt hlt]
    exact (Nat.two_pow_pos n).ne'
  -- its lowest bit is its only one
  have hbit := BitVec.getLsbD_true_ctz_of_ne_zero hne
  rw [BitVec.getLsbD_ofNat, Nat.testBit_two_pow, Bool.and_eq_true, decide_eq_true_iff] at hbit
  exact (of_decide_eq_true hbit.2).symm

theorem shows_outcomeBits {i n : Nat} (h : i < 2 ^ n) (x : Float) :
    (Outcome.mk (outcomeBits i n) x).Shows n i where
  length := by rw [toList_outcomeBits h, length_binary]
  char q hq := by rw [toList_outcomeBits h, getElem?_binary hq]
  decoded := by rw [toList_outcomeBits h, ofDigitChars_binary h]

/-- The bits of outcomes of one register are ordered like their indices. -/
theorem outcomeBits_lt {i j n : Nat} (hij : i < j) (hj : j < 2 ^ n) :
    outcomeBits i n < outcomeBits j n := by
  have hi : i < 2 ^ n := hij.trans hj
  rw [String.lt_iff_toList_lt, toList_outcomeBits hi, toList_outcomeBits hj]
  refine binary_lt ?_
  rwa [Nat.mod_eq_of_lt hi, Nat.mod_eq_of_lt hj]

section Above

variable {p : List Float} {threshold : Float}

theorem mem_entriesAbove_iff {x : Float} {i : Nat} :
    (x, i) ∈ entriesAbove p threshold ↔ p[i]? = some x ∧ threshold < x := by
  rw [entriesAbove, List.mem_filter, List.mem_zipIdx_iff_getElem?, decide_eq_true_iff]

/-- What is listed is listed in the order of its indices. -/
theorem pairwise_entriesAbove (p : List Float) (threshold : Float) :
    (entriesAbove p threshold).Pairwise fun x y => x.2 < y.2 := by
  have h : (p.zipIdx.map Prod.snd).Pairwise (· < ·) := by
    rw [List.zipIdx_map_snd]
    exact List.pairwise_lt_range'
  exact (List.pairwise_map.1 h).sublist List.filter_sublist

/-- **Outcomes above a threshold**: the distribution of `2^n` probabilities lists them. -/
theorem Distribution.lists_ofProbabilities (format : Format) {n : Nat} (h : p.length = 2 ^ n)
    (hsize : n < 64) (threshold : Float) :
    (ofProbabilities format p threshold).Lists n p threshold
      ((entriesAbove p threshold).map Prod.snd) := by
  have hn : trailingZeros p.length = n := by rw [h, trailingZeros_two_pow hsize]
  have hlt : ∀ y ∈ entriesAbove p threshold, y.2 < 2 ^ n := by
    intro y hy
    obtain ⟨hget, -⟩ := mem_entriesAbove_iff.1 hy
    exact h ▸ (List.getElem?_eq_some_iff.1 hget).1
  have hsorted := pairwise_entriesAbove p threshold
  have hordered : ((ofProbabilities format p threshold).outcomes.map
      Outcome.bits).Pairwise (· < ·) := by
    rw [ofProbabilities, hn, List.pairwise_map, List.pairwise_map]
    exact hsorted.imp_of_mem fun _ hy hxy => outcomeBits_lt hxy (hlt _ hy)
  refine ⟨hn, fun i => ?_, List.pairwise_map.2 hsorted, ?_, hordered, hordered.imp ne_of_lt⟩
  · constructor
    · intro hi
      obtain ⟨⟨x, i⟩, hx, rfl⟩ := List.mem_map.1 hi
      exact ⟨x, mem_entriesAbove_iff.1 hx⟩
    · rintro ⟨x, hx⟩
      exact List.mem_map.2 ⟨(x, i), mem_entriesAbove_iff.2 hx, rfl⟩
  · rw [ofProbabilities, hn, List.forall₂_map_left_iff, List.forall₂_map_right_iff,
      List.forall₂_same]
    exact fun y hy => ⟨(mem_entriesAbove_iff.1 hy).1, shows_outcomeBits (hlt y hy) y.1⟩

end Above

/-! ### Documents -/

namespace Document

variable {d : Document}

/-- The operations of a document. -/
def program : Document → Except (SimulationError Float) (Program Float)
  | canonical c => do (Record.program (← c.gates.mapError .circuit)).mapError .record
  | moment c => .ok c.program
  | register c => .ok c.program
  | timed c => c.program

/-- Registers count their qubits from the lowest bit on, all others from the highest. -/
def bitOrder : Document → BitOrder
  | register _ => .littleEndian
  | _ => .bigEndian

/-- The canonical number of a qubit, which is the place of its character in the bits of an
outcome. -/
def column (d : Document) (n : Nat) (q : Qubit) : Nat :=
  match d with
  | register _ => n - 1 - q.toNat
  | _ => q.toNat

/-- What a document is run to is the result of its program. -/
theorem statevector_eq_ok {s : Statevector Float} (h : d.statevector = .ok s) :
    ∃ program, d.program = .ok program ∧ run s.qubitCount d.bitOrder program = .ok s := by
  have hrun : ∀ {n : Nat} {order : BitOrder} {program : Program Float},
      (run n order program).mapError SimulationError.run = .ok s →
        run s.qubitCount order program = .ok s := by
    intro n order program h
    have hs := mapError_eq_ok h
    obtain ⟨-, -, hfold⟩ := run_eq_ok_iff.1 hs
    have hn : s.qubitCount = n := by rw [← hfold, qubitCount_foldl]; rfl
    rwa [hn]
  cases d with
  | canonical c =>
    obtain ⟨records, hrecords, h⟩ := bind_eq_ok h
    obtain ⟨program, hprogram, h⟩ := bind_eq_ok h
    refine ⟨program, ?_, hrun h⟩
    rw [Document.program, hrecords]
    exact hprogram
  | moment c => exact ⟨c.program, rfl, hrun h⟩
  | register c => exact ⟨c.program, rfl, hrun h⟩
  | timed c =>
    obtain ⟨program, hprogram, h⟩ := bind_eq_ok h
    exact ⟨program, hprogram, hrun h⟩

/-- The character of a qubit shows the bit that the operations on the qubit act on. -/
theorem bit_eq_column {n : Nat} {q : Qubit} (d : Document) (hq : q.toNat < n) :
    d.column n q < n ∧
      (d.bitOrder.bit q n : Except (RunError Float) Nat) = .ok (n - 1 - d.column n q) := by
  rw [bit_eq_ok_iff]
  cases d <;> simp only [column, bitOrder, BitOrder.position, and_true] <;> omega

/-- **Distributions read correctly.** A document whose program can be run has probabilities for the
indices of a register of `n` qubits. Its distribution lists those above the threshold, and the
character of a qubit in an outcome shows the bit that the qubit has been simulated with. -/
theorem distribution_reads_correctly {p : List Float} (h : d.probabilities = .ok p)
    (threshold : Float) :
    ∃ n, p.length = 2 ^ n ∧ padicValNat 2 p.length = n ∧
      (∃ r indices, d.distribution threshold = .ok r ∧ r.format = d.format ∧
        r.Lists n p threshold indices) ∧
      (∃ program s, d.program = .ok program ∧ run n d.bitOrder program = .ok s ∧
        s.probabilities = p) ∧
      ∀ q : Qubit, q.toNat < n → d.column n q < n ∧
        (d.bitOrder.bit q n : Except (RunError Float) Nat) = .ok (n - 1 - d.column n q) := by
  obtain ⟨s, hs, rfl⟩ := map_eq_ok h
  obtain ⟨program, hprogram, hrun⟩ := statevector_eq_ok hs
  have hlength : s.probabilities.length = 2 ^ s.qubitCount := by
    rw [Statevector.length_probabilities, Nat.one_shiftLeft]
  have hsize : s.qubitCount < 64 := (run_eq_ok_iff.1 hrun).1.trans_lt (by decide)
  refine ⟨s.qubitCount, hlength, ?_,
    ⟨_, _, ?_, rfl, Distribution.lists_ofProbabilities d.format hlength hsize threshold⟩,
    ⟨program, s, hprogram, hrun, rfl⟩, fun q hq => bit_eq_column d hq⟩
  · rw [hlength, padicValNat.prime_pow]
  · rw [distribution, h]
    rfl

/-- A register whose first qubit, the one at the lowest bit, is flipped. -/
def lowFlipped : Document := .register ⟨2, 0, [⟨.x, [0]⟩]⟩

theorem distribution_reads_correctly_register :
    ∃ p r indices, lowFlipped.probabilities = .ok p ∧ lowFlipped.distribution 0 = .ok r ∧
      r.format = .register ∧ r.Lists 2 p 0 indices ∧ lowFlipped.column 2 0 = 1 ∧
      (lowFlipped.bitOrder.bit 0 2 : Except (RunError Float) Nat) = .ok 0 := by
  have hp : lowFlipped.probabilities =
      .ok (BitOrder.littleEndian.applyTo (.zero 2) (.x, [0])).probabilities := rfl
  obtain ⟨n, hlength, -, ⟨r, indices, hr, hformat, hlists⟩, -, hbits⟩ :=
    distribution_reads_correctly hp 0
  obtain rfl : 2 = n := by
    rw [Statevector.length_probabilities] at hlength
    exact Nat.pow_right_injective le_rfl hlength
  exact ⟨_, r, indices, hp, hr, hformat, hlists, rfl, (hbits 0 (by decide)).2⟩

end Document

end CircuitExchange
