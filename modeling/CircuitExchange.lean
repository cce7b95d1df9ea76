import CircuitExchange.Main
import CircuitExchange.Proofs.Document.Distribution
import CircuitExchange.Proofs.Document.Export
import CircuitExchange.Proofs.Document.File
import CircuitExchange.Proofs.Document.Lines
import CircuitExchange.Proofs.Document.Measurement
import CircuitExchange.Proofs.Document.Refusal
import CircuitExchange.Proofs.Document.Source
import CircuitExchange.Proofs.Document.Tour
import CircuitExchange.Proofs.Expression.Precedence
import CircuitExchange.Proofs.Expression.Printing
import CircuitExchange.Proofs.Moment.RoundTrip
import CircuitExchange.Proofs.State.Exported
import CircuitExchange.Proofs.State.Misfit
import CircuitExchange.Proofs.State.Register
import CircuitExchange.Proofs.State.Reversal
import CircuitExchange.Proofs.Timed.Compaction
import CircuitExchange.Proofs.Register.Meaning
import CircuitExchange.Proofs.Register.RoundTrip
import CircuitExchange.Proofs.State.Action
import CircuitExchange.Proofs.State.Renumbering
import CircuitExchange.Proofs.State.Unitary
