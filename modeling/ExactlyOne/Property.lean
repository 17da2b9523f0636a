import ExactlyOne.Json.Value

/-!
Property values of a template, with the conditionals in them.

A conditional chooses one of two values by the outcome of a named condition. One that was written
with a part missing is kept as it was found: `Property.parts` gives the parts of a well-formed one
and says what is wrong with any other.
-/

namespace ExactlyOne

/-- A value as it is written in a template. In a conditional, `arity` is the number of arguments
that were given. -/
inductive Property where
  | scalar (value : Json)
  | list (items : List Property)
  | object (entries : List (String × Property))
  | conditional (condition : Option String) (whenTrue whenFalse : Option Property) (arity : Nat)
  | removed
  deriving Repr, Inhabited

inductive Malformation where
  | argumentCount (count : Nat)
  | conditionNotText
  | missingBranch (condition : String) (outcome : Bool)
  deriving DecidableEq, Repr

inductive Kind where
  | null
  | boolean
  | number
  | text
  | list
  | object
  | conditional
  | removed
  deriving DecidableEq, Repr

def Kind.name : Kind → String
  | .null => "null"
  | .boolean => "boolean"
  | .number => "number"
  | .text => "string"
  | .list => "list"
  | .object => "object"
  | .conditional => "conditional"
  | .removed => "AWS::NoValue"

def Malformation.message : Malformation → String
  | .argumentCount count =>
    "Fn::If expects [condition, value_if_true, value_if_false], got " ++ toString count ++
      " argument(s)"
  | .conditionNotText => "Fn::If condition name must be a string"
  | .missingBranch condition outcome =>
    "Fn::If on condition \"" ++ condition ++ "\" is missing its " ++
      (if outcome then "true" else "false") ++ " branch"

namespace Property

def choice (condition : String) (whenTrue whenFalse : Property) : Property :=
  .conditional (some condition) (some whenTrue) (some whenFalse) 3

def kind : Property → Kind
  | .scalar .null => .null
  | .scalar (.bool _) => .boolean
  | .scalar (.number _) => .number
  | .scalar _ => .text
  | .list _ => .list
  | .object _ => .object
  | .conditional .. => .conditional
  | .removed => .removed

def entries? : Property → Option (List (String × Property))
  | .object entries => some entries
  | _ => none

def isList : Property → Bool
  | .list _ => true
  | _ => false

/-- What is wrong with a conditional that is not well-formed: its number of arguments counts
before its condition, and that before its branches. -/
def malformation (condition : Option String) (whenTrue : Option Property) (arity : Nat) :
    Malformation :=
  if arity ≠ 3 then .argumentCount arity
  else match condition with
    | none => .conditionNotText
    | some c => .missingBranch c whenTrue.isNone

def parts (condition : Option String) (whenTrue whenFalse : Option Property) (arity : Nat) :
    Except Malformation (String × Property × Property) :=
  match condition, whenTrue, whenFalse, arity with
  | some c, some t, some f, 3 => .ok (c, t, f)
  | condition, whenTrue, _, arity => .error (malformation condition whenTrue arity)

theorem parts_choice (c : String) (t f : Property) :
    parts (some c) (some t) (some f) 3 = .ok (c, t, f) := rfl

theorem parts_eq_ok_iff {condition : Option String} {whenTrue whenFalse : Option Property}
    {arity : Nat} {c : String} {t f : Property} :
    parts condition whenTrue whenFalse arity = .ok (c, t, f) ↔
      condition = some c ∧ whenTrue = some t ∧ whenFalse = some f ∧ arity = 3 := by
  unfold parts
  split
  · simp
  · rename_i h
    simp only [reduceCtorEq, false_iff]
    rintro ⟨rfl, rfl, rfl, rfl⟩
    exact h c t f rfl rfl rfl rfl

mutual

/-- Equality of values; the order of keys does not count. -/
def same : Property → Property → Bool
  | .scalar a, .scalar b => a.same b
  | .list a, .list b => sameItems a b
  | .object a, .object b => a.length == b.length && sameEntries a b
  | .conditional c t f n, .conditional c' t' f' n' =>
    c == c' && sameBranch t t' && sameBranch f f' && n == n'
  | .removed, .removed => true
  | _, _ => false

def sameBranch : Option Property → Option Property → Bool
  | none, none => true
  | some a, some b => same a b
  | _, _ => false

def sameItems : List Property → List Property → Bool
  | [], [] => true
  | a :: as, b :: bs => same a b && sameItems as bs
  | _, _ => false

def sameEntries : List (String × Property) → List (String × Property) → Bool
  | [], _ => true
  | (k, a) :: rest, others =>
    (match Entries.find? k others with
      | some b => same a b
      | none => false) && sameEntries rest others

end

end Property

end ExactlyOne
