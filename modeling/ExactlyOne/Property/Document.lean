import ExactlyOne.Location
import ExactlyOne.Property

/-!
Property values and the JSON that writes them.

An object with the one key `Fn::If` is a conditional, and a reference to `AWS::NoValue` is a
removed value. `Property.ofJson` reads them, `Property.toJson` writes them.
-/

namespace ExactlyOne

namespace Property

def referenceKey : String := "Ref"

def removedName : String := "AWS::NoValue"

def isRemoved (key : String) (value : Json) : Bool :=
  key == referenceKey && value.text? == some removedName

mutual

def ofJson : Json → Property
  | .array items => .list (ofItems items)
  | .object [(key, value)] =>
    if key = conditionalKey then
      match value with
      | .array arguments =>
        .conditional (arguments.head?.bind Json.text?) (ofArgument 1 arguments)
          (ofArgument 2 arguments) arguments.length
      | _ => .conditional none none none 0
    else if isRemoved key value then .removed
    else .object [(key, ofJson value)]
  | .object entries => .object (ofEntries entries)
  | value => .scalar value

def ofArgument : Nat → List Json → Option Property
  | _, [] => none
  | 0, value :: _ => some (ofJson value)
  | n + 1, _ :: rest => ofArgument n rest

def ofItems : List Json → List Property
  | [] => []
  | item :: rest => ofJson item :: ofItems rest

def ofEntries : List (String × Json) → List (String × Property)
  | [] => []
  | (key, value) :: rest => (key, ofJson value) :: ofEntries rest

end

mutual

/-- A conditional is written with the branches that it has. -/
def toJson : Property → Json
  | .scalar value => value
  | .list items => .array (toItems items)
  | .object entries => .object (toEntries entries)
  | .conditional condition whenTrue whenFalse _ =>
    .object [(conditionalKey, .array
      ((condition.map Json.text).getD .null :: (toBranch whenTrue ++ toBranch whenFalse)))]
  | .removed => .object [(referenceKey, .text removedName)]

def toBranch : Option Property → List Json
  | none => []
  | some value => [toJson value]

def toItems : List Property → List Json
  | [] => []
  | item :: rest => toJson item :: toItems rest

def toEntries : List (String × Property) → List (String × Json)
  | [] => []
  | (key, value) :: rest => (key, toJson value) :: toEntries rest

end

theorem ofItems_eq_map (items : List Json) : ofItems items = items.map ofJson := by
  induction items with
  | nil => rfl
  | cons item rest ih => simp [ofItems, ih]

theorem ofEntries_eq_map (entries : List (String × Json)) :
    ofEntries entries = entries.map fun (key, value) => (key, ofJson value) := by
  induction entries with
  | nil => rfl
  | cons entry rest ih => simp [ofEntries, ih]

theorem ofArgument_eq (n : Nat) (arguments : List Json) :
    ofArgument n arguments = arguments[n]?.map ofJson := by
  induction arguments generalizing n with
  | nil => simp [ofArgument]
  | cons value rest ih => cases n <;> simp [ofArgument, ih]

theorem toItems_eq_map (items : List Property) : toItems items = items.map toJson := by
  induction items with
  | nil => rfl
  | cons item rest ih => simp [toItems, ih]

theorem toEntries_eq_map (entries : List (String × Property)) :
    toEntries entries = entries.map fun (key, value) => (key, toJson value) := by
  induction entries with
  | nil => rfl
  | cons entry rest ih => simp [toEntries, ih]

end Property

end ExactlyOne
