import ExactlyOne.Json.Value

/-!
Locations in a document: the keys and indexes that lead from its root to a value.
-/

namespace ExactlyOne

inductive Segment where
  | key (name : String)
  | index (position : Nat)
  deriving DecidableEq, Repr

structure Location where
  segments : List Segment
  deriving DecidableEq, Repr

def conditionalKey : String := "Fn::If"

namespace Segment

def text : Segment → String
  | .key name => name
  | .index position => toString position

def toJson : Segment → Json
  | .key name => .text name
  | .index position => .nat position

end Segment

namespace Location

def root : Location := ⟨[]⟩

def child (location : Location) (segment : Segment) : Location := ⟨location.segments ++ [segment]⟩

def key (location : Location) (name : String) : Location := location.child (.key name)

def index (location : Location) (position : Nat) : Location := location.child (.index position)

/-- The argument of a conditional that holds the value for an outcome of its condition. -/
def branchIndex (outcome : Bool) : Nat := if outcome then 1 else 2

def branch (location : Location) (outcome : Bool) : Location :=
  (location.key conditionalKey).index (branchIndex outcome)

def size (location : Location) : Nat := location.segments.length

def isRoot (location : Location) : Bool := location.segments.isEmpty

/-- The segments with slashes between them; a slash alone for the root. -/
def text (location : Location) : String :=
  if location.isRoot then "/" else "/".intercalate (location.segments.map Segment.text)

def toJson (location : Location) : Json := .array (location.segments.map Segment.toJson)

end Location

end ExactlyOne
