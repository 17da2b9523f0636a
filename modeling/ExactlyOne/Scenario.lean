import ExactlyOne.Json.Value

/-!
Scenarios: outcomes fixed for some conditions, in the order in which they were fixed.

`Scenario.get?_assign_self` and `Scenario.get?_assign_of_ne` say what fixing an outcome does.
-/

namespace ExactlyOne

structure Scenario where
  assignments : List (String × Bool)
  deriving DecidableEq, Repr

namespace Scenario

def empty : Scenario := ⟨[]⟩

def isEmpty (s : Scenario) : Bool := s.assignments.isEmpty

def size (s : Scenario) : Nat := s.assignments.length

def get? (s : Scenario) (condition : String) : Option Bool := Entries.find? condition s.assignments

/-- A condition that was fixed before keeps its place. -/
def assign (s : Scenario) (condition : String) (outcome : Bool) : Scenario :=
  ⟨Entries.insert condition outcome s.assignments⟩

def ofPairs (pairs : List (String × Bool)) : Scenario := ⟨Entries.ofPairs pairs⟩

/-- Whether two scenarios fix the same outcomes, in any order. -/
def sameOutcomes (s t : Scenario) : Bool :=
  s.size == t.size && s.assignments.all fun (condition, outcome) => t.get? condition == some outcome

def clause (condition : String) (outcome : Bool) : String :=
  "when condition \"" ++ condition ++ "\" is " ++ (if outcome then "true" else "false")

def text (s : Scenario) : String :=
  " and ".intercalate (s.assignments.map fun (condition, outcome) => clause condition outcome)

def toJson (s : Scenario) : Json :=
  .object (s.assignments.map fun (condition, outcome) => (condition, .bool outcome))

@[simp] theorem get?_empty (condition : String) : empty.get? condition = none := rfl

theorem get?_assign_self (s : Scenario) (condition : String) (outcome : Bool) :
    (s.assign condition outcome).get? condition = some outcome :=
  Entries.find?_insert_self ..

theorem get?_assign_of_ne (s : Scenario) {condition other : String} (h : other ≠ condition)
    (outcome : Bool) : (s.assign condition outcome).get? other = s.get? other :=
  Entries.find?_insert_of_ne h ..

theorem assign_eq_self {s : Scenario} {condition : String} {outcome : Bool}
    (h : s.get? condition = some outcome) : s.assign condition outcome = s := by
  simp only [assign, Entries.insert_eq_self h]

end Scenario

end ExactlyOne
