import ExactlyOne.CommandLine.Run

/-!
The program: reads its arguments, runs them on the real files and exits with the status of the run.
-/

namespace ExactlyOne

namespace Program

def osError : IO.Error → OsError
  | .noFileOrDirectory .. => .notFound
  | .alreadyExists .. => .alreadyExists
  | .inappropriateType _ code _ => ofCode code
  | .invalidArgument _ code _ => ofCode code
  | error => .other (toString error)
where
  ofCode (code : UInt32) : OsError :=
    if code = 20 then .notDirectory
    else if code = 21 then .isDirectory
    else if code = 36 then .nameTooLong
    else .other ("os error " ++ toString code)

def attempt {α : Type} (action : IO α) : IO (Except OsError α) := do
  match ← action.toBaseIO with
  | .ok value => pure (.ok value)
  | .error error => pure (.error (osError error))

/-- The host of the program: the files below the working directory, and all others by their full
paths. -/
def realHost : Host IO where
  read path := do
    if path.isEmpty then return .error .notFound
    attempt do pure (← IO.FS.readBinFile ((← IO.currentDir) / path)).toList
  kind? path := do
    if path.isEmpty then return none
    let place := (← IO.currentDir) / path
    if ← place.isDir then return some .directory
    if ← place.pathExists then return some .file
    return none
  list path :=
    attempt do pure ((← ((← IO.currentDir) / path).readDir).toList.map (·.fileName))
  write path content :=
    attempt do
      let place := (← IO.currentDir) / path
      if let some parent := place.parent then IO.FS.createDirAll parent
      IO.FS.writeFile place content

/-- Whether a variable of the environment is set, and to something other than zero. -/
def setting (name : String) : IO (Option Bool) := do
  pure ((← IO.getEnv name).map (· != "0"))

/-- Styles are shown on a terminal, unless the environment wants it otherwise. -/
def palette : IO Palette := do
  if (← setting "CLICOLOR_FORCE") == some true then return .ansi
  if (← setting "NO_COLOR").isSome then return .plain
  let wanted := (← setting "CLICOLOR").getD true
  let terminal ← (← IO.getStdout).isTty
  return if wanted && terminal then .ansi else .plain

def usage : String :=
  "usage: check --input FILE... [--json-pointer POINTER] [--jq-expr FILTER] [--catalog FILE]\n" ++
  "             [--max-variants N] [--max-depth N] [--format text|json] [--out FILE] [--no-op]\n" ++
  "       catalog [--catalog FILE] [--type TYPE]\n" ++
  "       options of both: [--verbose]"

def UsageError.message : UsageError → String
  | .missingRequired => "a required argument is missing"
  | .unknown => "unexpected argument"
  | .invalidValue => "invalid value"
  | .badValue => "invalid value"
  | .unknownCommand => "unrecognized subcommand"
  | .conflict => "an argument cannot be used multiple times"
  | .tooManyValues => "unexpected value"
  | .missingCommand => "a subcommand is required"
  | .help => "help"
  | .helpForNothing => "a subcommand is required"

def refuse (error : UsageError) : IO UInt32 := do
  if error = .help then
    IO.println usage
    return 0
  else
    IO.eprintln ("error: " ++ UsageError.message error ++ "\n\n" ++ usage)
    return 2

def perform (invocation : Invocation) : IO UInt32 := do
  let palette ← palette
  let outcome ← invocation.command.run realHost palette
  IO.eprint (outcome.logText palette invocation.verbose)
  IO.print outcome.printed
  return outcome.status.toUInt32

end Program

end ExactlyOne

def main (arguments : List String) : IO UInt32 := do
  match ExactlyOne.Invocation.parse arguments with
  | .ok invocation => ExactlyOne.Program.perform invocation
  | .error error => ExactlyOne.Program.refuse error
