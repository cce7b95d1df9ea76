import CircuitExchange.Command.Arguments
import CircuitExchange.Command.Host
import CircuitExchange.Document.Basic
import CircuitExchange.Settings

/-!
Running commands on a host. Errors are chains of messages from the outside in; the last thing a
failed run leaves is their text on one line.

* `Command.run`: one command under given settings.
* `CommandLine.run`: arguments, environment, settings and the command.
-/

namespace CircuitExchange

/-! ### Errors -/

inductive CommandError where
  | settings (e : SettingsError)
  | fileNotFound (path : String)
  | unreadable (path cause : String)
  | load (format : Format) (path : String) (e : ReadError)
  | conversion (source target : Format) (e : ConversionError)
  | simulation (format : Format) (e : SimulationError Float)
  | unwritable (path cause : String)

namespace CommandError

/-- The messages of an error, from the outside in. -/
def chain : CommandError → List String
  | settings e => [e.message]
  | fileNotFound path => [s!"File not found: {path}"]
  | unreadable path cause => [s!"Failed to read file: {path}", cause]
  | load format path e => s!"Failed to load {format.name} circuit from {path}" :: e.chain
  | conversion source target e =>
    s!"Failed to convert {source.name} circuit to {target.name}" :: e.chain
  | simulation format e => s!"Failed to simulate {format.name} circuit" :: e.chain
  | unwritable path cause => [s!"Failed to write file: {path}", cause]

def message (e : CommandError) : String := chainText e.chain

end CommandError

/-! ### Output -/

/-- A text filled up with blanks after it. -/
def padRight (width : Nat) (s : String) : String :=
  s ++ String.ofList (List.replicate (width - s.length) ' ')

/-- A text filled up with blanks before it. -/
def padLeft (width : Nat) (s : String) : String :=
  String.ofList (List.replicate (width - s.length) ' ') ++ s

/-- A row of the table of records. -/
def describe (index : Nat) (r : Record Float) (precision : Nat) : String :=
  let place := padLeft 4 (toString index)
  let name := padRight 5 r.name.text
  let qubits := ", ".intercalate (r.qubits.map fun q => toString q.toNat)
  let row := s!"{place}  {name} qubits [{qubits}]"
  if r.params.isEmpty then row
  else
    let params := ", ".intercalate (r.params.map (Decimal.fixed precision))
    s!"{row}  params [{params}]"

/-- The layout of JSON under the settings. -/
def Settings.layout (s : Settings) : Json.Layout := if s.pretty then .pretty else .compact

/-- A row of the list of formats. -/
def formatRow (format : Format) : String :=
  s!"  {padRight 10 format.name} {padRight 5 format.encoding} {format.description}\n"

def formatsText : String :=
  "Circuit formats:\n\n" ++ String.join (Format.all.map formatRow) ++
    "\nEvery conversion passes through the canonical form.\n"

def versionNumber : String := "0.1.0"

def versionText : String :=
  s!"qlingua v{versionNumber} - quantum circuit interchange\n\n" ++
    "Components:\n" ++
    "  qlingua-token     Gate-token grammar and parser\n" ++
    "  qlingua-convert   Adapter contract\n" ++
    "  qlingua-sim       Statevector engine\n" ++
    "  qlingua-adapter-* moment, register and timed toolkit adapters\n" ++
    "  qlingua-cli       Command-line interface\n" ++
    "\nLicense:    Apache-2.0\n"

def helpText : String :=
  "Usage: qlingua [OPTIONS] <COMMAND>\n\n" ++
    "Commands: parse, convert, simulate, formats, version, help\n"

/-- A row of the list of outcomes. -/
def outcomeRow (precision : Nat) (o : Outcome) : String :=
  let probability := Decimal.fixed precision o.probability
  s!"  |{o.bits}⟩  {probability}\n"

/-! ### Commands -/

section Run

variable {m : Type → Type} [Monad m]

/-- Runs that can fail. -/
abbrev Attempt (m : Type → Type) (α : Type) := ExceptT CommandError m α

/-- Takes the result of a step, or fails with an error made from its own. -/
def orFail {ε α : Type} (make : ε → CommandError) : Except ε α → Attempt m α
  | .ok a => pure a
  | .error e => throw (make e)

/-- Prints a text. -/
def say (host : Host m) (text : String) : Attempt m Unit := ExceptT.lift (host.print text)

/-- The circuit in a file. -/
def load (host : Host m) (path : String) (format : Format) : Attempt m Document := do
  if !(← ExceptT.lift (host.isThere path)) then throw (.fileNotFound path)
  let source ← orFail (.unreadable path) (← ExceptT.lift (host.read path))
  orFail (.load format path) (Document.read format source)

/-- Prints every record of a canonical circuit, which has been checked when it was read. -/
def runParse (host : Host m) (s : Settings) (input : String) : Attempt m Unit := do
  say host s!"→ Parsing {input}\n"
  match ← load host input .canonical with
  | .canonical c =>
    let records ← orFail (fun e => .load .canonical input (.token e)) c.gates
    say host (String.join (records.zipIdx.map fun (r, index) =>
      describe index r s.precision ++ "\n"))
    let size := (Circuit.sizeOf records).toNat
    say host s!"✓ {records.length} gates on {size} qubits\n"
  | _ => return ()

/-- Converts a file; without a path for the result it is all that is printed. -/
def runConvert (host : Host m) (s : Settings) (input : String) (source target : Format)
    (output : Option String) : Attempt m Unit := do
  let d ← load host input source
  let converted ← orFail (.conversion source target) (d.convert target)
  let text := converted.render s.layout
  match output with
  | none => say host text
  | some path =>
    orFail (.unwritable path) (← ExceptT.lift (host.write path text))
    say host s!"✓ Converted {input} ({source.name}) to {path} ({target.name})\n"

/-- Prints the outcomes of a circuit. -/
def runSimulate (host : Host m) (s : Settings) (input : String) (format : Format) (json : Bool) :
    Attempt m Unit := do
  let d ← load host input format
  let result ← orFail (.simulation format) (d.distribution s.threshold)
  if json then say host (result.toJson.text s.layout ++ "\n")
  else
    let threshold := Decimal.Style.plain.text s.threshold
    say host s!"→ Simulating {input} ({format.name}, {result.qubitCount} qubits)\n"
    say host (String.join (result.outcomes.map (outcomeRow s.precision)))
    say host s!"✓ {result.outcomes.length} outcomes above {threshold}\n"

/-- Runs a command. -/
def Command.run (host : Host m) (s : Settings) : Command → Attempt m Unit
  | .parse input => runParse host s input
  | .convert input source target output => runConvert host s input source target output
  | .simulate input format json => runSimulate host s input format json
  | .formats => say host formatsText
  | .version => say host versionText

/-- The settings of a file, if one is named, and of the environment. -/
def loadSettings (host : Host m) (path : Option String) (environment : String → Option String) :
    Attempt m Settings := do
  let s ← match path with
    | none => pure Settings.default
    | some path =>
      let text ← orFail (fun cause => .settings (.unreadable path cause))
        (← ExceptT.lift (host.read path))
      orFail .settings (Settings.ofYaml text)
  let s ← orFail .settings (s.withEnvironment environment)
  orFail .settings s.validate
  return s

end Run

/-- How a run of the program ends. -/
structure Ending where
  exitCode : UInt32
  /-- The line on standard error, empty if there is none. -/
  errorLine : String
deriving DecidableEq, Repr

/-- Runs the program. -/
def CommandLine.run {m : Type → Type} [Monad m] (host : Host m)
    (environment : String → Option String) (arguments : List String) : m Ending := do
  match Arguments.parse (environment Arguments.settingsKey) arguments with
  | .misuse => return ⟨2, ""⟩
  | .showHelp => do
    host.print helpText
    return ⟨0, ""⟩
  | .showVersion => do
    host.print s!"qlingua {versionNumber}\n"
    return ⟨0, ""⟩
  | .run _ path command => do
    let attempt : Attempt m Unit := do
      let s ← loadSettings host path environment
      command.run host s
    match ← attempt.run with
    | .ok () => return ⟨0, ""⟩
    | .error e => return ⟨1, "Error: " ++ e.message⟩

end CircuitExchange
