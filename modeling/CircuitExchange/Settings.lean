import CircuitExchange.Yaml.Reader
import CircuitExchange.Text.Blank
import CircuitExchange.Decimal.Text

/-!
The settings of the command line: defaults, replaced by those of a file, replaced by those of the
environment. Only the result is validated, so a bad setting of a file can be mended by the
environment.

* `Settings.ofYaml`, `Settings.withEnvironment`, `Settings.validate`: the three steps.
* `logFilter`: the level of messages for a number of requests to say more.
-/

namespace CircuitExchange

structure Settings where
  level : String
  pretty : Bool
  /-- Decimals of printed numbers. -/
  precision : Nat
  /-- Outcomes that are not more probable than this are not printed. -/
  threshold : Float
deriving DecidableEq

/-- Why there are no settings. -/
inductive SettingsError where
  | unreadable (path cause : String)
  | notYaml
  | variable (key value : String)
  | level (value : String)
  | precision (value : Nat)
  | threshold (value : Float)
deriving DecidableEq

namespace Settings

/-- The largest number of decimals that is worth printing. -/
def maxPrecision : Nat := 17

def default : Settings := ⟨"warn", true, 6, Decimal.Numeral.toFloat false ⟨1, -9⟩⟩

end Settings

def SettingsError.message : SettingsError → String
  | unreadable path cause => s!"IO error: {path}: {cause}"
  | notYaml => "Parse error: not a valid settings file"
  | .variable key value => s!"Parse error: {key}: cannot parse '{value}'"
  | level value => s!"Validation error: Invalid log level: {value}"
  | precision value =>
    s!"Validation error: precision must be at most {Settings.maxPrecision}, got {value}"
  | threshold value =>
    "Validation error: threshold must be a non-negative number, got " ++
      Decimal.Style.plain.text value

namespace Settings

/-! ### Files -/

/-- The settings of a section about messages. -/
def loggingOfYaml? (root : Yaml) (s : Settings) (y : Yaml) : Option Settings := do
  match ← root.fields? ["level"] y with
  | [level] => return { s with level := ← Yaml.orDefault Yaml.text? s.level level }
  | _ => none

/-- The settings of a section about output. -/
def outputOfYaml? (root : Yaml) (s : Settings) (y : Yaml) : Option Settings := do
  match ← root.fields? ["pretty", "precision", "threshold"] y with
  | [pretty, precision, threshold] =>
    return { s with
      pretty := ← Yaml.orDefault Yaml.bool? s.pretty pretty
      precision := ← Yaml.orDefault Yaml.nat? s.precision precision
      threshold := ← Yaml.orDefault Yaml.float? s.threshold threshold }
  | _ => none

/-- The settings of a document. -/
def ofDocument? (root : Yaml) : Option Settings := do
  match ← root.fields? ["logging", "output"] root with
  | [logging, output] =>
    let s ← Yaml.orDefault (loggingOfYaml? root default) default logging
    Yaml.orDefault (outputOfYaml? root s) s output
  | _ => none

/-- The settings of the text of a file. -/
def ofYaml (text : String) : Except SettingsError Settings :=
  if (Text.trim text.toList).isEmpty then .ok default
  else
    match Yaml.parse? text >>= ofDocument? with
    | some s => .ok s
    | none => .error .notYaml

/-! ### The environment -/

def levelKey : String := "QLINGUA_LOG_LEVEL"

def prettyKey : String := "QLINGUA_PRETTY_JSON"

def precisionKey : String := "QLINGUA_PRECISION"

def thresholdKey : String := "QLINGUA_PROBABILITY_THRESHOLD"

/-- A truth value by its name. -/
def readBool? : List Char → Option Bool
  | ['t', 'r', 'u', 'e'] => some true
  | ['f', 'a', 'l', 's', 'e'] => some false
  | _ => none

/-- A decimal number of 64 bits, which may have a plus sign. -/
def readNat? (cs : List Char) : Option Nat :=
  let ds := Yaml.dropPlus cs
  if ds.isEmpty || !ds.all Char.isDigit then none
  else some (Decimal.ofDigits ds) |>.filter (· < UInt64.size)

/-- The value of a variable, read without the blanks around it, or what is used if it is not set. -/
def variableOr {α : Type} (environment : String → Option String) (read : List Char → Option α)
    (key : String) (otherwise : α) : Except SettingsError α :=
  match environment key with
  | none => .ok otherwise
  | some value =>
    match read (Text.trim value.toList) with
    | some a => .ok a
    | none => .error (.variable key value)

/-- The settings with those of the environment in their place. -/
def withEnvironment (s : Settings) (environment : String → Option String) :
    Except SettingsError Settings := do
  let pretty ← variableOr environment readBool? prettyKey s.pretty
  let precision ← variableOr environment readNat? precisionKey s.precision
  let threshold ← variableOr environment Decimal.readFloat? thresholdKey s.threshold
  return ⟨(environment levelKey).getD s.level, pretty, precision, threshold⟩

/-! ### Validation -/

def levels : List String := ["trace", "debug", "info", "warn", "error"]

/-- Checks the level of messages, the number of decimals and the threshold, in this order. -/
def validate (s : Settings) : Except SettingsError Unit :=
  if s.level ∉ levels then .error (.level s.level)
  else if maxPrecision < s.precision then .error (.precision s.precision)
  else if !s.threshold.isFinite || s.threshold < 0 then .error (.threshold s.threshold)
  else .ok ()

end Settings

/-- The level of messages after a number of requests to say more. -/
def logFilter (requests : Nat) (level : String) : String :=
  match requests with
  | 0 => level
  | 1 => "info"
  | 2 => "debug"
  | _ => "trace"

end CircuitExchange
