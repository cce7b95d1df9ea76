import CircuitExchange.Command.Run

/-!
The command line program: the outer layer that connects commands to files, the environment and the
standard streams.
-/

namespace CircuitExchange

/-- The number of an error, which may be given as its negative. -/
def errorNumber (code : UInt32) : UInt32 := if code < 0x80000000 then code else 0 - code

/-- The cause of a failed access by the number of the error, in the words of the system. -/
def causeOfNumber (number : UInt32) (details : String) : String :=
  match number with
  | 2 => Directory.Refusal.noSuchFile.cause
  | 13 => "Permission denied (os error 13)"
  | 20 => Directory.Refusal.notADirectory.cause
  | 21 => Directory.Refusal.isADirectory.cause
  | 36 => Directory.Refusal.nameTooLong.cause
  | _ => s!"{details} (os error {number})"

/-- The number and the details of an error of the system. -/
def numberOf? : IO.Error → Option (UInt32 × String)
  | .noFileOrDirectory _ code details => some (errorNumber code, details)
  | .inappropriateType _ code details => some (errorNumber code, details)
  | .invalidArgument _ code details => some (errorNumber code, details)
  | .permissionDenied _ code details => some (errorNumber code, details)
  | .resourceExhausted _ code details => some (errorNumber code, details)
  | .noSuchThing _ code details => some (errorNumber code, details)
  | .otherError code details => some (errorNumber code, details)
  | _ => none

/-- The cause of a failed access to a file. A file that is there may be no text. -/
def causeText (e : IO.Error) : String :=
  match numberOf? e, e with
  | some (number, details), _ => causeOfNumber number details
  | none, .userError _ => "stream did not contain valid UTF-8"
  | none, e => e.toString

/-- Whether something is there that could not be read: a directory, what must not be read, or a file
that is no text. -/
def isUnreadable (e : IO.Error) : Bool :=
  match numberOf? e, e with
  | some (number, _), _ => number == 21 || number == 13
  | none, .userError _ => true
  | _, _ => false

/-- The files of the system. -/
def systemHost : Host IO where
  isThere path := do
    try
      discard <| IO.FS.readFile path
      return true
    catch e => return isUnreadable e
  read path := do
    try return .ok (← IO.FS.readFile path)
    catch e => return .error (causeText e)
  write path text := do
    try
      IO.FS.writeFile path text
      return .ok ()
    catch e => return .error (causeText e)
  print text := IO.print text

/-- The variables that the program reads. -/
def environmentKeys : List String :=
  [Arguments.settingsKey, Settings.levelKey, Settings.prettyKey, Settings.precisionKey,
   Settings.thresholdKey]

end CircuitExchange

open CircuitExchange in
def main (arguments : List String) : IO UInt32 := do
  let values ← environmentKeys.mapM fun key => do return (key, ← IO.getEnv key)
  let ending ← CommandLine.run systemHost (fun key => (values.lookup key).join) arguments
  if ending.errorLine != "" then IO.eprintln ending.errorLine
  return ending.exitCode
