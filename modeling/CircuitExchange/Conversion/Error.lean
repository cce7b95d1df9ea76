import CircuitExchange.Circuit
import CircuitExchange.Moment.Basic
import CircuitExchange.Register.Basic
import CircuitExchange.Timed.Basic

/-!
Why a circuit cannot be converted: a token that does not parse, a record its gate does not allow, or
a fault of one of the three circuit models.
-/

namespace CircuitExchange

inductive ConversionError where
  | circuit (e : CircuitError)
  | record (e : RecordError)
  | moment (e : MomentError)
  | register (e : RegisterError)
  | timed (e : TimedError)
deriving DecidableEq

namespace ConversionError

def message : ConversionError → String
  | circuit e => e.message
  | record e => e.message
  | moment e => e.message
  | register e => e.message
  | timed e => e.message

/-- Whether a token names a gate outside the vocabulary. -/
def isUnknownGate : ConversionError → Bool
  | circuit e => e.error.isUnknownGate
  | _ => false

end ConversionError

end CircuitExchange
