import ExactlyOne.Location
import ExactlyOne.Property

/-!
What keeps a group from being checked at a location.

Either the value there has the wrong structure, or the check would pass one of its limits.
-/

namespace ExactlyOne

structure Limits where
  maxVariants : Nat := 4096
  maxDepth : Nat := 64
  deriving DecidableEq, Repr

inductive Flaw where
  | malformed (malformation : Malformation)
  | notObject (kind : Kind)
  deriving DecidableEq, Repr

def Flaw.message : Flaw → String
  | .malformed malformation => malformation.message
  | .notObject kind => "expected an object, found " ++ kind.name

inductive Measure where
  | variants
  | nesting
  deriving DecidableEq, Repr

def Measure.name : Measure → String
  | .variants => "variants"
  | .nesting => "levels of nesting"

inductive Obstacle where
  | structural (location : Location) (flaw : Flaw)
  | limit (location : Location) (group : List String) (most : Nat) (measure : Measure)
  deriving DecidableEq, Repr

def groupText (group : List String) : String := ", ".intercalate group

namespace Obstacle

def location : Obstacle → Location
  | .structural location _ => location
  | .limit location .. => location

def message : Obstacle → String
  | .structural location flaw => flaw.message ++ " at " ++ location.text
  | .limit location group most measure =>
    "gave up on [" ++ groupText group ++ "] at " ++ location.text ++ ": more than " ++
      toString most ++ " " ++ measure.name

def members : Obstacle → List (String × Json)
  | .structural location flaw =>
    [("kind", .text "structural"), ("path", location.toJson), ("reason", .text flaw.message)]
  | .limit location group most measure =>
    [("kind", .text "resource_limit"), ("path", location.toJson),
      ("group", .text (groupText group)), ("limit", .nat most), ("what", .text measure.name)]

def toJson (obstacle : Obstacle) : Json := .object obstacle.members

end Obstacle

end ExactlyOne
