import ExactlyOne.Json.Value

/-!
Languages of filters.

A filter is a text; a language says which texts are filters and what they make of a document. A run
takes its documents from the outputs of a filter and knows nothing else of the language. Only
filters that come to an end count: their outputs are a list.
-/

namespace ExactlyOne

namespace Filter

/-- What may go wrong from the text of a filter to its outputs; the errors are in the words of the
language. -/
inductive Fault where
  | unreadable (errors : List String)
  /-- Names for which nothing is there, each with what it should be. -/
  | undefined (names : List (String × String))
  | evaluation (error : String)
  deriving DecidableEq, Repr

def inSource (source : String) : String := " in `" ++ source ++ "`"

def Fault.message (source : String) : Fault → String
  | .unreadable errors =>
    "\n".intercalate (errors.map fun error => "parse error: " ++ error ++ inSource source)
  | .undefined names =>
    "\n".intercalate
      (names.map fun (name, what) => "undefined `" ++ name ++ "`: " ++ what ++ inSource source)
  | .evaluation error => error

structure Language where
  /-- The outputs that a filter makes of a document, any of which may be an error. -/
  compile : (source : String) → Except Fault (Json → List (Except String Json))

/-- All outputs of a filter, if none of them is an error. -/
def Language.run (language : Language) (source : String) (input : Json) :
    Except Fault (List Json) := do
  let outputs ← language.compile source
  (outputs input).mapM fun output => output.mapError .evaluation

end Filter

end ExactlyOne
