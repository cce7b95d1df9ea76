import CircuitExchange.Gate.Name
import CircuitExchange.Scalar
import CircuitExchange.Decimal.Text

/-!
Gate records: one application of a canonical gate to qubits. A record may hold any numbers of angles
and qubits; `checkArity` compares them with what the gate needs.

* `checkArity_eq_ok_iff`: the check passes exactly the well formed records.
-/

namespace CircuitExchange

/-- The index of a qubit. -/
abbrev Qubit := UInt32

/-- The number one above an index, or the largest number for the largest index. -/
def Qubit.next (q : Qubit) : UInt32 := if q = 0xffffffff then q else q + 1

/-- The number of qubits of a register that just holds all of the given ones. -/
def impliedQubitCount (qubits : List Qubit) : UInt32 :=
  qubits.foldl (fun count q => max count (Qubit.next q)) 0

/-- What can be wrong with a record or with a qubit of a register. -/
inductive RecordError where
  | qubitCount (gate : GateName) (expected got : Nat)
  | paramCount (gate : GateName) (expected got : Nat)
  | duplicateQubit (gate : GateName) (qubit : Qubit)
  | qubitOutOfRange (qubit : Qubit) (size : UInt32)
deriving DecidableEq, Repr

def RecordError.message : RecordError → String
  | .qubitCount gate expected got =>
    s!"Gate '{gate.text}' requires {expected} qubits, got {got}"
  | .paramCount gate expected got =>
    s!"Gate '{gate.text}' requires {expected} parameters, got {got}"
  | .duplicateQubit gate qubit =>
    s!"Duplicate qubit {qubit.toNat} in operation (gate: {gate.text})"
  | .qubitOutOfRange qubit size =>
    s!"Qubit {qubit.toNat} out of range for a register of {size.toNat} qubits"

/-- The index counted from the other end of a register of the given size. -/
def Qubit.reversed (q : Qubit) (size : UInt32) : Except RecordError Qubit :=
  if size ≤ q then .error (.qubitOutOfRange q size) else .ok (size - 1 - q)

/-- The first entry of a list that is equal to an earlier one; `seen` is what came before. -/
def firstRepeated? {α : Type} [BEq α] (seen : List α) : List α → Option α
  | [] => none
  | a :: rest => if seen.contains a then some a else firstRepeated? (seen ++ [a]) rest

/-- One application of a gate. -/
structure Record (α : Type) where
  name : GateName
  params : List α
  qubits : List Qubit
deriving DecidableEq, Repr

namespace Record

variable {α : Type}

/-- The record has the numbers of qubits and angles its gate needs, and no qubit twice. -/
structure WellFormed (r : Record α) : Prop where
  qubitCount : r.qubits.length = r.name.qubitCount
  paramCount : r.params.length = r.name.paramCount
  nodup : r.qubits.Nodup

/-- Checks the number of qubits, the number of angles and that no qubit is repeated, in this
order. -/
def checkArity (r : Record α) : Except RecordError Unit :=
  if r.qubits.length ≠ r.name.qubitCount then
    .error (.qubitCount r.name r.name.qubitCount r.qubits.length)
  else if r.params.length ≠ r.name.paramCount then
    .error (.paramCount r.name r.name.paramCount r.params.length)
  else
    match firstRepeated? [] r.qubits with
    | some q => .error (.duplicateQubit r.name q)
    | none => .ok ()

/-- The angle of a record that has exactly one. -/
def angle (r : Record α) : Except RecordError α :=
  match r.params with
  | [theta] => .ok theta
  | params => .error (.paramCount r.name 1 params.length)

end Record

theorem firstRepeated?_eq_none_iff {α : Type} [BEq α] [LawfulBEq α] (seen rest : List α) :
    firstRepeated? seen rest = none ↔ rest.Nodup ∧ ∀ a ∈ rest, a ∉ seen := by
  induction rest generalizing seen with
  | nil => simp [firstRepeated?]
  | cons a rest ih =>
    by_cases h : a ∈ seen
    · simp [firstRepeated?, h]
    · simp only [firstRepeated?, List.contains_eq_mem, h, decide_false, Bool.false_eq_true,
        if_false, ih, List.nodup_cons, List.mem_cons, List.mem_append, List.not_mem_nil, or_false]
      grind

theorem Record.checkArity_eq_ok_iff {α : Type} (r : Record α) :
    r.checkArity = .ok () ↔ r.WellFormed := by
  have hrep := firstRepeated?_eq_none_iff [] r.qubits
  constructor
  · intro h
    by_cases hq : r.qubits.length = r.name.qubitCount
    · by_cases hp : r.params.length = r.name.paramCount
      · cases hd : firstRepeated? [] r.qubits with
        | none => exact ⟨hq, hp, (hrep.1 hd).1⟩
        | some q => simp [checkArity, hq, hp, hd] at h
      · simp [checkArity, hq, hp] at h
    · simp [checkArity, hq] at h
  · rintro ⟨hq, hp, hd⟩
    have : firstRepeated? [] r.qubits = none := hrep.2 ⟨hd, by simp⟩
    simp [checkArity, hq, hp, this]

/-! ### Text -/

/-- Magnitudes from here on are written with an exponent in tokens. -/
def exponentThreshold : Float := Decimal.Numeral.toFloat false ⟨1, 15⟩

/-- An angle as it stands in a token: the shortest decimal that reads back. -/
def angleText (x : Float) : String :=
  if exponentThreshold ≤ x.abs then Decimal.Style.scientific.text x else Decimal.Style.plain.text x

/-- A token with the given texts of angles, which only rotations have. -/
def tokenText (name : GateName) (angles : List String) (qubits : List Qubit) : String :=
  let angleGroup := ", ".intercalate angles
  let qubitGroup := ", ".intercalate (qubits.map fun q => toString q.toNat)
  if name.isRotation then s!"{name.text}({angleGroup})({qubitGroup})"
  else s!"{name.text}({qubitGroup})"

/-- The canonical token of a record, such as `CX(0, 1)` or `RX(1.5)(3)`. -/
def Record.text (r : Record Float) : String :=
  tokenText r.name (r.params.map angleText) r.qubits

end CircuitExchange
