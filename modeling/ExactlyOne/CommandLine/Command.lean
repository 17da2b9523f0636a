import ExactlyOne.CommandLine.Arguments
import ExactlyOne.Obstacle

/-!
Commands: what a command line asks for.

`check` looks at templates, `catalog` shows groups. Each has options of its own; `--verbose` may
stand in front of the command or behind it.
-/

namespace ExactlyOne

inductive ReportFormat where
  | text
  | json
  deriving DecidableEq, Repr

structure CheckOptions where
  inputs : List String
  pointer : Option String
  filter : Option String
  catalog : Option String
  limits : Limits
  format : ReportFormat
  out : Option String
  noOp : Bool
  deriving DecidableEq, Repr

structure CatalogOptions where
  catalog : Option String
  type : Option String
  deriving DecidableEq, Repr

inductive Command where
  | check (options : CheckOptions)
  | catalog (options : CatalogOptions)
  deriving DecidableEq, Repr

structure Invocation where
  verbose : Bool
  command : Command
  deriving DecidableEq, Repr

namespace Invocation

inductive Key where
  | verbose
  | input
  | pointer
  | filter
  | catalog
  | maxVariants
  | maxDepth
  | format
  | out
  | noOp
  | type
  deriving DecidableEq, Repr

open Arguments

/-- A number in 64 bits, perhaps with a plus sign. -/
def limit? (s : String) : Option Nat :=
  let digits := match s.toList with
    | '+' :: digits => digits
    | digits => digits
  if digits.isEmpty || !digits.all Char.isDigit then none
  else ((String.ofList digits).toNat?).filter (· < twoTo 64)

def format? (s : String) : Option ReportFormat :=
  if s = "text" then some .text else if s = "json" then some .json else none

def checkValue (key : Key) (value : String) : Except UsageError Unit :=
  match key with
  | .maxVariants | .maxDepth => if (limit? value).isSome then .ok () else .error .badValue
  | .format => if (format? value).isSome then .ok () else .error .invalidValue
  | .catalog | .out => if value.isEmpty then .error .invalidValue else .ok ()
  | _ => .ok ()

def verboseSpec : Spec Key := ⟨some .verbose, "verbose", some 'v', .flag⟩

def catalogSpec : Spec Key := ⟨some .catalog, "catalog", none, .one⟩

def mainGrammar : Grammar Key := ⟨[verboseSpec], checkValue⟩

def checkGrammar : Grammar Key where
  specs := [verboseSpec, catalogSpec,
    ⟨some .input, "input", some 'i', .many⟩,
    ⟨some .pointer, "json-pointer", none, .one⟩,
    ⟨some .filter, "jq-expr", none, .one⟩,
    ⟨some .maxVariants, "max-variants", none, .one⟩,
    ⟨some .maxDepth, "max-depth", none, .one⟩,
    ⟨some .format, "format", none, .one⟩,
    ⟨some .out, "out", some 'o', .one⟩,
    ⟨some .noOp, "no-op", none, .flag⟩]
  check := checkValue

def catalogGrammar : Grammar Key where
  specs := [verboseSpec, catalogSpec, ⟨some .type, "type", none, .one⟩]
  check := checkValue

def scanAll (s : Grammar Key) (arguments : List String) : Except UsageError (Progress Key) := do
  match ← scan s .start arguments with
  | (progress, .atEnd) => pure progress
  | (_, .atArgument ..) => throw .unknown

def checkOptions (given : Progress Key) : CheckOptions where
  inputs := given.values .input
  pointer := given.value? .pointer
  filter := given.value? .filter
  catalog := given.value? .catalog
  limits :=
    let standard : Limits := {}
    { maxVariants := ((given.value? .maxVariants).bind limit?).getD standard.maxVariants
      maxDepth := ((given.value? .maxDepth).bind limit?).getD standard.maxDepth }
  format := ((given.value? .format).bind format?).getD .text
  out := given.value? .out
  noOp := given.has .noOp

def catalogOptions (given : Progress Key) : CatalogOptions where
  catalog := given.value? .catalog
  type := given.value? .type

/-- What follows `help`: at most the name of a command, none of which has commands of its own. -/
def help (arguments : List String) : UsageError :=
  match arguments with
  | [] => .help
  | [name] => if name ∈ ["check", "catalog", "help"] then .help else .unknownCommand
  | _ => .unknownCommand

def ofCommand (verbose : Bool) (name : String) (arguments : List String) :
    Except UsageError Invocation := do
  if name = "check" then do
    let given ← scanAll checkGrammar arguments
    if given.has .input then
      pure ⟨verbose || given.has .verbose, .check (checkOptions given)⟩
    else throw .missingRequired
  else if name = "catalog" then do
    let given ← scanAll catalogGrammar arguments
    pure ⟨verbose || given.has .verbose, .catalog (catalogOptions given)⟩
  else if name = "help" then throw (help arguments)
  else throw .unknownCommand

def parse (arguments : List String) : Except UsageError Invocation := do
  match ← scan mainGrammar .start arguments with
  | (given, .atEnd) => throw (if given.has .verbose then .missingCommand else .helpForNothing)
  | (_, .atArgument name _ true) =>
    throw (if name ∈ ["check", "catalog", "help"] then .unknown else .unknownCommand)
  | (given, .atArgument name rest false) => ofCommand (given.has .verbose) name rest

end Invocation

end ExactlyOne
