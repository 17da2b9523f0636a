import ExactlyOne.Filter

/-!
Running a filter.

An output is a value or an error; an error does not end the sequence, whoever takes the outputs
decides what it means.
-/

namespace ExactlyOne

namespace Filter

inductive Purpose where
  | searched
  | key
  | number
  deriving DecidableEq, Repr

def Purpose.name : Purpose → String
  | .searched => "iterable (array or object)"
  | .key => "string"
  | .number => "number"

inductive EvalError where
  | noIndex (value key : Value)
  | unsuitable (value : Value) (purpose : Purpose)
  | raised (value : Value)
  deriving Repr

abbrev Result (α : Type) := Except EvalError α

abbrev Output := Result Value

/-! ## Values -/

/-- The item at a position; a negative one counts from the end. -/
def itemAt (items : List Value) (position : Int) : Value :=
  let n := if position < 0 then position + items.length else position
  if n < 0 then .null else (items[n.toNat]?).getD .null

def indexValue (value key : Value) : Output :=
  match value, key with
  | .array items, .number (.int n) => .ok (itemAt items n)
  | .object entries, .text name => .ok ((Entries.find? name entries).getD .null)
  | .array _, _ => .error (.noIndex value key)
  | .object _, _ => .error (.noIndex value key)
  | _, _ => .error (.unsuitable value .searched)

def valuesOf : Value → List Output
  | .array items => items.map .ok
  | .object entries => entries.map fun (_, value) => .ok value
  | value => [.error (.unsuitable value .searched)]

def lengthOf : Value → Output
  | .null => .ok (.int 0)
  | .bool b => .error (.raised (.text ((Json.bool b).compact ++ " has no length")))
  | .number n => .ok (.number n.abs)
  | .text s => .ok (.int s.length)
  | .array items => .ok (.int items.length)
  | .object entries => .ok (.int entries.length)

def negated : Value → Output
  | .number n => .ok (.number n.neg)
  | value => .error (.unsuitable value .number)

def singleEntry (key value : Value) : Output :=
  match key with
  | .text name => .ok (.object [(name, value)])
  | key => .error (.unsuitable key .key)

def union : Value → Value → Value
  | .object entries, .object more =>
    .object (more.foldl (fun entries (key, value) => Entries.insert key value entries) entries)
  | value, _ => value

/-! ## Sequences of results -/

/-- What follows from each value; errors stay. -/
def andThen {α β : Type} (results : List (Result α)) (next : α → List (Result β)) :
    List (Result β) :=
  results.flatMap fun result =>
    match result with
    | .ok value => next value
    | .error e => [.error e]

/-- What follows from each pair, the second value varying fastest. Errors take part in pairs as
values do; of two errors the first counts. -/
def pairwise {α β γ : Type} (firsts : List (Result α)) (seconds : List (Result β))
    (join : α → β → Result γ) : List (Result γ) :=
  firsts.flatMap fun first => seconds.map fun second => do join (← first) (← second)

def isValue {α : Type} : Result α → Bool
  | .ok _ => true
  | .error _ => false

def optionally {α : Type} (optional : Bool) (results : List (Result α)) : List (Result α) :=
  if optional then results.filter isValue else results

def valuesOrError {α : Type} : List (Result α) → Result (List α)
  | [] => .ok []
  | .error e :: _ => .error e
  | .ok value :: rest => do pure (value :: (← valuesOrError rest))

/-! ## Paths -/

inductive Step where
  | index (key : Value) (optional : Bool)
  | iterate (optional : Bool)

def Step.outputs (value : Value) : Step → List Output
  | .index key optional => optionally optional [indexValue value key]
  | .iterate optional => optionally optional (valuesOf value)

def follow : List Step → Value → List Output
  | [], value => [.ok value]
  | step :: rest, value => andThen (step.outputs value) (follow rest)

/-! ## Outputs -/

mutual

def outputs (bindings : List (String × Value)) (input : Value) : Filter → List Output
  | .identity => [.ok input]
  | .literal value => [.ok value]
  | .variable name => [.ok ((Entries.find? name bindings).getD .null)]
  | .path head accesses =>
    let ways := stepsOf bindings input accesses
    andThen (head.outputs bindings input) fun value =>
      andThen ways fun steps => follow steps value
  | .negate body => andThen (body.outputs bindings input) fun value => [negated value]
  | .pipe first second =>
    andThen (first.outputs bindings input) fun value => second.outputs bindings value
  | .bind source name body =>
    andThen (source.outputs bindings input) fun value =>
      body.outputs ((name, value) :: bindings) input
  | .both first second => first.outputs bindings input ++ second.outputs bindings input
  | .alternative first second =>
    let taken := (first.outputs bindings input).filter fun output =>
      match output with
      | .ok value => value.isTrue
      | .error _ => true
    if taken.isEmpty then second.outputs bindings input else taken
  | .equal first second =>
    pairwise (first.outputs bindings input) (second.outputs bindings input) fun a b =>
      .ok (.bool (a.same b))
  | .attempt body => (body.outputs bindings input).takeWhile isValue
  | .collect body => [(valuesOrError (body.outputs bindings input)).map .array]
  | .object entries => objectOutputs bindings input entries [.ok (.object [])]
  | .call "length" [] => [lengthOf input]
  | .call "error" [] => [.error (.raised input)]
  | .call "error" [body] =>
    (andThen (body.outputs bindings input) fun value => [.error (.raised value)]) ++ [.ok input]
  | .call "map" [body] =>
    [(valuesOrError (andThen (valuesOf input) fun value => body.outputs bindings value)).map
      .array]
  | .call "select" [body] =>
    andThen (body.outputs bindings input) fun value => if value.isTrue then [.ok input] else []
  | .call _ _ => []

/-- Every choice of keys for some accesses, the last one varying fastest. A choice with errors is
the first of them. -/
def stepsOf (bindings : List (String × Value)) (input : Value) :
    List Access → List (Result (List Step))
  | [] => [.ok []]
  | .index key optional :: rest =>
    pairwise (key.outputs bindings input) (stepsOf bindings input rest) fun k steps =>
      .ok (.index k optional :: steps)
  | .iterate optional :: rest =>
    (stepsOf bindings input rest).map fun steps => steps.map (.iterate optional :: ·)

/-- Every choice of keys and values behind the objects that the entries so far make, the last
entry varying fastest. -/
def objectOutputs (bindings : List (String × Value)) (input : Value) :
    List (Filter × Filter) → List Output → List Output
  | [], objects => objects
  | (key, value) :: rest, objects =>
    let singles := pairwise (key.outputs bindings input) (value.outputs bindings input) singleEntry
    objectOutputs bindings input rest (pairwise objects singles fun a b => .ok (union a b))

end

end Filter

end ExactlyOne
