import ExactlyOne.Filter.Value

/-!
Filters: small programs that pick values out of a JSON document.

A filter turns an input into a sequence of outputs, any of which may be an error. The filters here
are only a fragment of the jq language: paths, literals, variables, `|`, `,`, `//`, `==`, the
negative sign, `?`, arrays, objects and six named filters. They leave out, among others, most named
filters, definitions, conditionals, reductions, assignments, arithmetic, the other comparisons,
slices and texts with filters inside. A filter that is written with any of these is refused here,
though the language has it. What is proved of a check holds for filters of any language.
-/

namespace ExactlyOne

mutual

inductive Filter where
  | identity
  | literal (value : Filter.Value)
  | variable (name : String)
  /-- What some accesses, one after the other, lead to from each output of a filter. -/
  | path (head : Filter) (accesses : List Filter.Access)
  | negate (body : Filter)
  | pipe (first second : Filter)
  | bind (source : Filter) (name : String) (body : Filter)
  | both (first second : Filter)
  /-- The outputs of the first filter that count as true, or all of the second. -/
  | alternative (first second : Filter)
  | equal (first second : Filter)
  /-- The outputs in front of the first error. -/
  | attempt (body : Filter)
  | collect (body : Filter)
  | object (entries : List (Filter × Filter))
  | call (name : String) (arguments : List Filter)

/-- One step from a value to what it holds; one that is optional leads nowhere where it fails. -/
inductive Filter.Access where
  | index (key : Filter) (optional : Bool)
  | iterate (optional : Bool)

end

namespace Filter

inductive Missing where
  | filter (name : String) (arity : Nat)
  | library (name : String)
  | variable (name : String)
  deriving DecidableEq, Repr

def library? (name : String) : Option String :=
  let front := name.toList.takeWhile (· != ':')
  if front.length < name.length then some (String.ofList front) else none

/-- The named filters of the fragment with their numbers of arguments. -/
def standard : List (String × Nat) :=
  [("empty", 0), ("error", 0), ("length", 0), ("error", 1), ("map", 1), ("select", 1)]

/-- What is missing for a name with some arguments: in the fragment, all but the standard filters.
There are no libraries. -/
def missingName (name : String) (arity : Nat) : List Missing :=
  match library? name with
  | some library => [.library library]
  | none => if (name, arity) ∈ standard then [] else [.filter name arity]

mutual

/-- What is missing in a filter in which some variables are known: from left to right, but for a
named output, which comes behind the body in which it has the name. -/
def missing (known : List String) : Filter → List Missing
  | .identity => []
  | .literal _ => []
  | .variable name => if name ∈ known then [] else [.variable name]
  | .path head accesses => head.missing known ++ missingInAccesses known accesses
  | .negate body => body.missing known
  | .pipe first second => first.missing known ++ second.missing known
  | .bind source name body => body.missing (name :: known) ++ source.missing known
  | .both first second => first.missing known ++ second.missing known
  | .alternative first second => first.missing known ++ second.missing known
  | .equal first second => first.missing known ++ second.missing known
  | .attempt body => body.missing known
  | .collect body => body.missing known
  | .object entries => missingInEntries known entries
  | .call name arguments =>
    missingInAll known arguments ++ missingName name arguments.length

def missingInAccesses (known : List String) : List Access → List Missing
  | [] => []
  | .index key _ :: rest => key.missing known ++ missingInAccesses known rest
  | .iterate _ :: rest => missingInAccesses known rest

def missingInAll (known : List String) : List Filter → List Missing
  | [] => []
  | filter :: rest => filter.missing known ++ missingInAll known rest

def missingInEntries (known : List String) : List (Filter × Filter) → List Missing
  | [] => []
  | (key, value) :: rest =>
    key.missing known ++ value.missing known ++ missingInEntries known rest

end

end Filter

end ExactlyOne
