import ExactlyOne.Template
import ExactlyOne.Text.Quoted

/-!
The log: what a run tells about its progress.
-/

namespace ExactlyOne

namespace Log

inductive Level where
  | debug
  | info
  | warn
  deriving DecidableEq, Repr

def Level.label : Level → String
  | .debug => "DEBUG"
  | .info => " INFO"
  | .warn => " WARN"

def Level.rank : Level → Nat
  | .debug => 0
  | .info => 1
  | .warn => 2

inductive Detail where
  | count (n : Nat)
  | plain (s : String)
  | quoted (s : String)
  deriving DecidableEq, Repr

def Detail.text : Detail → String
  | .count n => toString n
  | .plain s => s
  | .quoted s => quotedText s

structure Event where
  level : Level
  message : String
  details : List (String × Detail)
  deriving DecidableEq, Repr

def Event.line (event : Event) : String :=
  event.level.label ++ " " ++ event.message ++
    String.join (event.details.map fun (name, detail) => " " ++ name ++ "=" ++ detail.text)

def text (level : Level) (events : List Event) : String :=
  String.join ((events.filter fun event => level.rank ≤ event.level.rank).map (·.line ++ "\n"))

/-- A line without the carriage return that may be a part of its end. -/
def withoutReturn (line : String) : String :=
  if line.endsWith "\r" then String.ofList line.toList.dropLast else line

/-- The lines that are written about events. A text that holds line breaks makes more than one. -/
def lines (level : Level) (events : List Event) : List String :=
  ((text level events).splitOn "\n").dropLast.map withoutReturn

end Log

def Visit.event (catalog : Catalog) : Visit → Log.Event
  | .noResources => ⟨.debug, "template has no Resources section", []⟩
  | .untypedResource name =>
    ⟨.warn, "skipping resource without a string Type", [("resource", .quoted name)]⟩
  | .resource name type _ =>
    ⟨.debug, "checking resource", [("resource", .quoted name), ("resource_type", .quoted type),
      ("groups", .count (catalog.resourceGroups type).length)]⟩
  | .nested type _ location =>
    ⟨.debug, "checking nested property", [("path", .plain location.text),
      ("property_type", .quoted type), ("groups", .count (catalog.propertyGroups type).length)]⟩

end ExactlyOne
