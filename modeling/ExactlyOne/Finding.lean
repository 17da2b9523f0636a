import ExactlyOne.Variant

/-!
What a check finds.

Of the names in a group exactly one should be a key of an object, in every variant of the object.
`Property.checkGroup` reports each variant in which it is not so, or the obstacle that kept the
group from being checked.
-/

namespace ExactlyOne

/-- A variant of an object in which the number of keys from a group is not one. -/
structure Violation where
  location : Location
  objectLocation : Location
  group : List String
  scenario : Scenario
  count : Nat
  deriving DecidableEq, Repr

inductive Finding where
  | violation (violation : Violation)
  | obstacle (obstacle : Obstacle)
  deriving DecidableEq, Repr

def Violation.message (v : Violation) : String :=
  let rule := "Only one of [" ++ groupText v.group ++ "] should be specified "
  if v.scenario.isEmpty then rule ++ "for " ++ v.objectLocation.text
  else rule ++ v.scenario.text ++ " at " ++ v.objectLocation.text

namespace Finding

def message : Finding → String
  | .violation v => v.message
  | .obstacle o => o.message

def location : Finding → Location
  | .violation v => v.location
  | .obstacle o => o.location

def isViolation : Finding → Bool
  | .violation _ => true
  | .obstacle _ => false

def toJson : Finding → Json
  | .violation v =>
    .object [("type", .text "violation"), ("path", v.location.toJson),
      ("object_path", v.objectLocation.toJson), ("group", .array (v.group.map .text)),
      ("scenario", v.scenario.toJson), ("count", .nat v.count)]
  | .obstacle o => .object (("type", .text "error") :: o.members)

end Finding

/-- The violation of a group by a variant, if it has any number of its keys but one. -/
def Variant.violation? (variant : Variant) (location : Location) (group : List String) :
    Option Violation :=
  let count := variant.count group
  if count = 1 then none else some ⟨location, variant.location, group, variant.scenario, count⟩

namespace Property

def checkGroup (limits : Limits) (value : Property) (location : Location) (group : List String) :
    List Finding :=
  match value.expand location group limits with
  | .ok variants => (variants.filterMap (·.violation? location group)).map .violation
  | .error obstacle => [.obstacle obstacle]

def check (limits : Limits) (value : Property) (location : Location)
    (groups : List (List String)) : List Finding :=
  groups.flatMap (value.checkGroup limits location)

end Property

end ExactlyOne
