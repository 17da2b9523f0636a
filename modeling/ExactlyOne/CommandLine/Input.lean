import ExactlyOne.CommandLine.Tools
import ExactlyOne.Json.Pointer
import ExactlyOne.Json.Reader

/-!
The inputs of a check: which files they are, and which documents are in them.
-/

namespace ExactlyOne

inductive InputError where
  | unreadable (error : OsError)
  | notUtf8
  | malformed (bytes : List UInt8) (failure : Json.Failure)
  | nothingPointed (pointer : String)
  | filter (source : String) (fault : Filter.Fault)

def InputError.message (file : String) : InputError → String
  | .unreadable error => "failed to read " ++ file ++ ": " ++ error.message
  | .notUtf8 => "failed to read " ++ file ++ ": stream did not contain valid UTF-8"
  | .malformed bytes failure =>
    "failed to parse JSON source file (" ++ file ++ "): " ++ failure.message bytes
  | .nothingPointed pointer => "JSON pointer " ++ pointer ++ " matched nothing in " ++ file
  | .filter source fault =>
    "failed to apply jq expression to " ++ file ++ ": " ++ fault.message source

/-- How the documents are picked from the value in a file. -/
structure Selection where
  pointer : Option String
  filter : Option String
  deriving DecidableEq, Repr

namespace Selection

def point (selection : Selection) (value : Json) : Except InputError Json :=
  match selection.pointer with
  | none => .ok value
  | some pointer =>
    match value.pointed? pointer with
    | some target => .ok target
    | none => .error (.nothingPointed pointer)

def apply (language : Filter.Language) (selection : Selection) (value : Json) :
    Except InputError (List Json) :=
  match selection.filter with
  | none => .ok [value]
  | some source => (language.run source value).mapError (.filter source)

def documents (language : Filter.Language) (selection : Selection) (bytes : List UInt8) :
    Except InputError (List Json) := do
  if (ofUtf8? bytes).isNone then throw .notUtf8
  let value ← (Json.parseBytes bytes).mapError (.malformed bytes)
  selection.apply language (← selection.point value)

end Selection

inductive ResolutionError where
  | badPattern (pattern fault : String)
  | unreadable (error : String)
  | noMatch (pattern : String)
  deriving DecidableEq, Repr

def ResolutionError.message : ResolutionError → String
  | .badPattern pattern fault => "bad glob pattern " ++ pattern ++ ": " ++ fault
  | .unreadable error => error
  | .noMatch pattern => "glob pattern matched no files: " ++ pattern

/-- The files that an input names: itself, or all that fit it if it is a pattern. -/
def resolveInput {m : Type → Type} [Monad m] (tools : Tools m) (input : String) :
    ExceptT ResolutionError m (List String) := do
  if Glob.isPattern input then
    match ← (tools.glob input : m _) with
    | .error fault => throw (.badPattern input fault)
    | .ok found =>
      match found.mapM id with
      | .error error => throw (.unreadable error)
      | .ok [] => throw (.noMatch input)
      | .ok files => pure files
  else pure [input]

def resolveInputs {m : Type → Type} [Monad m] (tools : Tools m) (inputs : List String) :
    m (Except ResolutionError (List String)) :=
  (do pure (← inputs.mapM (resolveInput tools)).flatten : ExceptT ResolutionError m _).run

end ExactlyOne
