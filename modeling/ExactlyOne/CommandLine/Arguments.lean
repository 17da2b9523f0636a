/-!
Options on a command line.

An option is written with two dashes and a long name, or with one dash and a letter; letters may
stand together, and the value of the last one may follow it at once. A value may also follow an
equals sign, or stand as an argument of its own. Two dashes alone end the options.
-/

namespace ExactlyOne

inductive UsageError where
  | missingRequired
  | unknown
  | invalidValue
  | badValue
  | unknownCommand
  | conflict
  | tooManyValues
  | missingCommand
  | help
  | helpForNothing
  deriving DecidableEq, Repr

namespace Arguments

inductive Arity where
  | flag
  | one
  | many
  deriving DecidableEq, Repr

/-- An option. The argument that asks for help is an option too, which no run ever sees. -/
structure Spec (κ : Type) where
  key : Option κ
  long : String
  short : Option Char
  arity : Arity

def helpSpec {κ : Type} : Spec κ := ⟨none, "help", some 'h', .flag⟩

structure Grammar (κ : Type) where
  specs : List (Spec κ)
  check : κ → String → Except UsageError Unit

/-- The options given so far, in order, and one that may still take values. -/
structure Progress (κ : Type) where
  given : List (κ × List String)
  pending : Option (Spec κ × List String)

variable {κ : Type} [BEq κ]

namespace Progress

def start : Progress κ := ⟨[], none⟩

def has (progress : Progress κ) (key : κ) : Bool := progress.given.any (·.1 == key)

def values (progress : Progress κ) (key : κ) : List String :=
  (progress.given.filter (·.1 == key)).flatMap Prod.snd

def value? (progress : Progress κ) (key : κ) : Option String := (progress.values key).head?

/-- Takes an option with all its values. Only an option of many values may be repeated. -/
def take (s : Grammar κ) (progress : Progress κ) (spec : Spec κ) (values : List String) :
    Except UsageError (Progress κ) :=
  match spec.key with
  | none => .error .help
  | some key =>
    if spec.arity != .flag && values.isEmpty then .error .invalidValue
    else if spec.arity != .many && progress.has key then .error .conflict
    else do
      values.forM (s.check key)
      pure ⟨progress.given ++ [(key, values)], none⟩

def settle (s : Grammar κ) (progress : Progress κ) : Except UsageError (Progress κ) :=
  match progress.pending with
  | none => .ok progress
  | some (spec, values) => take s { progress with pending := none } spec values

/-- Takes an option behind which a value may stand, once the open one is settled. -/
def openSpec (s : Grammar κ) (progress : Progress κ) (spec : Spec κ) (attached : Option String) :
    Except UsageError (Progress κ) := do
  let progress ← progress.settle s
  match attached with
  | some value => progress.take s spec [value]
  | none => pure { progress with pending := some (spec, []) }

def wantsMore (progress : Progress κ) : Bool :=
  match progress.pending with
  | none => false
  | some (spec, values) => spec.arity == .many || values.isEmpty

def addValue (progress : Progress κ) (value : String) : Progress κ :=
  { progress with pending := progress.pending.map fun (spec, values) => (spec, values ++ [value]) }

end Progress

def Grammar.all (s : Grammar κ) : List (Spec κ) := helpSpec :: s.specs

def takeLetters (s : Grammar κ) (progress : Progress κ) : List Char →
    Except UsageError (Progress κ)
  | [] => .ok progress
  | c :: rest =>
    match s.all.find? (·.short == some c) with
    | none => .error .unknown
    | some spec =>
      if spec.arity == .flag then do
        let progress ← (← progress.settle s).take s spec []
        takeLetters s progress rest
      else
        match rest with
        | [] => progress.openSpec s spec none
        | '=' :: value => progress.openSpec s spec (some (String.ofList value))
        | value => progress.openSpec s spec (some (String.ofList value))

def takeName (s : Grammar κ) (progress : Progress κ) (name : List Char) :
    Except UsageError (Progress κ) :=
  let long := name.takeWhile (· != '=')
  let attached := if long.length < name.length
    then some (String.ofList (name.drop (long.length + 1))) else none
  match s.all.find? (·.long == String.ofList long) with
  | none => .error .unknown
  | some spec =>
    if spec.arity == .flag then
      match attached with
      | some _ => .error .tooManyValues
      | none => do (← progress.settle s).take s spec []
    else progress.openSpec s spec attached

inductive Stop where
  | atEnd
  | atArgument (argument : String) (rest : List String) (afterDashes : Bool)
  deriving DecidableEq, Repr

def scan (s : Grammar κ) (progress : Progress κ) : List String →
    Except UsageError (Progress κ × Stop)
  | [] => do pure (← progress.settle s, .atEnd)
  | argument :: rest =>
    match argument.toList with
    | ['-', '-'] =>
      match rest with
      | [] => do pure (← progress.settle s, .atEnd)
      | next :: rest => .ok (progress, .atArgument next rest true)
    | '-' :: '-' :: name => do scan s (← takeName s progress name) rest
    | '-' :: c :: letters => do scan s (← takeLetters s progress (c :: letters)) rest
    | _ =>
      if progress.wantsMore then scan s (progress.addValue argument) rest
      else .ok (progress, .atArgument argument rest false)

end Arguments

end ExactlyOne
