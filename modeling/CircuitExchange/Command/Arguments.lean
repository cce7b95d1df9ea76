import CircuitExchange.Document.Format

/-!
The arguments of the command line: options before the name of a command, the name, and options after
it. An option may be given once, except the one that asks for more messages. A value may follow its
option as the next argument, after an equals sign, or, for an option of one letter, immediately.

* `Arguments.parse`: the request, help, the version, or misuse.
-/

namespace CircuitExchange

inductive Command where
  | parse (input : String)
  | convert (input : String) (source target : Format) (output : Option String)
  | simulate (input : String) (format : Format) (json : Bool)
  | formats
  | version
deriving DecidableEq, Repr

/-- What the arguments ask for. -/
inductive Request where
  | run (verbose : Nat) (settings : Option String) (command : Command)
  | showVersion
  | showHelp
  | misuse
deriving DecidableEq, Repr

/-- The names of commands. -/
inductive CommandName where
  | parse | convert | simulate | formats | version
deriving DecidableEq, Repr

def CommandName.ofText? : String → Option CommandName
  | "parse" => some parse
  | "convert" => some convert
  | "simulate" => some simulate
  | "formats" => some formats
  | "version" => some version
  | _ => none

/-- The options of all commands. -/
inductive OptionName where
  | verbose | settings | help | version
  | input | output | source | target | format | json
deriving DecidableEq, Repr

namespace OptionName

/-- Whether a value belongs to the option. -/
def takesValue : OptionName → Bool
  | verbose | help | version | json => false
  | _ => true

/-- The options before the name of a command. -/
def atTop : List OptionName := [verbose, settings, help, version]

/-- The options after the name of a command. -/
def after : CommandName → List OptionName
  | .parse => [verbose, settings, help, input]
  | .convert => [verbose, settings, help, input, source, target, output]
  | .simulate => [verbose, settings, help, input, format, json]
  | .formats => [verbose, settings, help]
  | .version => [verbose, settings, help]

def long : OptionName → String
  | verbose => "verbose"
  | settings => "config"
  | help => "help"
  | version => "version"
  | input => "input"
  | output => "output"
  | source => "from"
  | target => "to"
  | format => "format"
  | json => "json"

def short? : OptionName → Option Char
  | verbose => some 'v'
  | help => some 'h'
  | version => some 'V'
  | input => some 'i'
  | output => some 'o'
  | format => some 'f'
  | _ => none

/-- Whether a text may be the value of the option. -/
def accepts (option : OptionName) (value : String) : Bool :=
  match option with
  | source | target | format => (Format.parse? false value).isSome
  | settings => value != ""
  | _ => true

end OptionName

/-- An option as it is given, with its value if it takes one. -/
structure Given where
  option : OptionName
  value : String
deriving DecidableEq, Repr

namespace Arguments

/-- How reading arguments can end early. -/
inductive Stop where
  | help
  | version
  | misuse
deriving DecidableEq, Repr

/-- Whether an argument can be the value of the option before it. -/
def isValue (argument : String) : Bool := !argument.startsWith "-" || argument == "-"

/-- Adds an option to those already given. -/
def add (given : List Given) (option : OptionName) (value : String) : Except Stop (List Given) :=
  match option with
  | .help => .error .help
  | .version => .error .version
  | _ =>
    if !option.accepts value then .error .misuse
    else if option != .verbose && given.any (·.option == option) then .error .misuse
    else .ok (given ++ [⟨option, value⟩])

/-- Adds an option whose value is the next argument. -/
def addNext (given : List Given) (option : OptionName) :
    List String → Except Stop (List Given × List String)
  | value :: rest => do
    if isValue value then return (← add given option value, rest) else throw .misuse
  | [] => throw .misuse

/-- Reads the letters after a single dash. -/
def takeShort (options : List OptionName) (given : List Given) (rest : List String) :
    List Char → Except Stop (List Given × List String)
  | [] => .ok (given, rest)
  | c :: cs =>
    match options.find? fun o => o.short? == some c with
    | none => .error .misuse
    | some option =>
      if option.takesValue then
        match cs with
        | [] => addNext given option rest
        | '=' :: value => (add given option (String.ofList value)).map (·, rest)
        | value => (add given option (String.ofList value)).map (·, rest)
      else do takeShort options (← add given option "") rest cs

/-- Reads what follows two dashes. -/
def takeLong (options : List OptionName) (given : List Given) (rest : List String)
    (cs : List Char) : Except Stop (List Given × List String) :=
  let (name, value) := cs.span (· ≠ '=')
  match options.find? fun o => o.long == String.ofList name with
  | none => .error .misuse
  | some option =>
    match value with
    | [] =>
      if option.takesValue then addNext given option rest
      else (add given option "").map (·, rest)
    | _ :: value =>
      if option.takesValue then (add given option (String.ofList value)).map (·, rest)
      else .error .misuse

/-- Reads options up to the first argument that is none. The bound is the number of arguments. -/
def takeOptions (options : List OptionName) :
    Nat → List Given → List String → Except Stop (List Given × List String)
  | 0, given, arguments => .ok (given, arguments)
  | _ + 1, given, [] => .ok (given, [])
  | bound + 1, given, argument :: rest =>
    match argument.toList with
    | ['-', '-'] => if rest.isEmpty then .ok (given, []) else .error .misuse
    | '-' :: '-' :: cs => do
      let (given, rest) ← takeLong options given rest cs
      takeOptions options bound given rest
    | '-' :: c :: cs => do
      let (given, rest) ← takeShort options given rest (c :: cs)
      takeOptions options bound given rest
    | _ => .ok (given, argument :: rest)

/-- The value of an option, if it is given. -/
def value? (given : List Given) (option : OptionName) : Option String :=
  (given.find? (·.option == option)).map (·.value)

def format? (given : List Given) (option : OptionName) : Option Format := do
  Format.parse? false (← value? given option)

/-- The command of a name with its options, if none that it needs is missing. -/
def command? (name : CommandName) (given : List Given) : Option Command := do
  match name with
  | .parse => return .parse (← value? given .input)
  | .convert =>
    return .convert (← value? given .input) (← format? given .source) (← format? given .target)
      (value? given .output)
  | .simulate =>
    return .simulate (← value? given .input) ((format? given .format).getD .canonical)
      (given.any (·.option == .json))
  | .formats => return .formats
  | .version => return .version

/-- The variable that stands in for the path of the settings. -/
def settingsKey : String := "QLINGUA_CONFIG"

/-- The path of the settings: the one given last, else the one of the environment. -/
def settingsPath (environment : Option String) (top inner : List Given) : Option String :=
  value? inner .settings <|> value? top .settings <|> environment

/-- An empty path in the environment is misuse, unless the option is given in both places. -/
def isEnvironmentBad (environment : Option String) (top inner : List Given) : Bool :=
  environment == some "" &&
    ((value? top .settings).isNone || (value? inner .settings).isNone)

/-- Whether there is help on what the arguments after `help` name: one command at most. -/
def isHelpTopic : List String → Bool
  | [] => true
  | [name] => name == "help" || (CommandName.ofText? name).isSome
  | _ => false

/-- Reads all arguments; `environment` is the path of the settings it names. -/
def read (environment : Option String) (arguments : List String) : Except Stop Request := do
  let (top, rest) ← takeOptions OptionName.atTop arguments.length [] arguments
  match rest with
  | [] => throw .misuse
  | "help" :: topic => throw (if isHelpTopic topic then .help else .misuse)
  | name :: rest =>
    match CommandName.ofText? name with
    | none => throw .misuse
    | some name =>
      let (inner, rest) ← takeOptions (OptionName.after name) rest.length [] rest
      if !rest.isEmpty || isEnvironmentBad environment top inner then throw .misuse
      match command? name inner with
      | none => throw .misuse
      | some command =>
        let verbose := ((top ++ inner).filter (·.option == .verbose)).length
        return .run verbose (settingsPath environment top inner) command

/-- What the arguments ask for. -/
def parse (environment : Option String) (arguments : List String) : Request :=
  match read environment arguments with
  | .ok request => request
  | .error .help => .showHelp
  | .error .version => .showVersion
  | .error .misuse => .misuse

end Arguments

end CircuitExchange
