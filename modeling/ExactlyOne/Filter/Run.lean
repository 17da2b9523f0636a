import ExactlyOne.Filter.Evaluation
import ExactlyOne.Filter.Grammar
import ExactlyOne.Filter.Language
import ExactlyOne.Text.Quoted

/-!
The fragment of the filter language as a language of its own: from the text of a filter to its
outputs for a document, and the words for what may go wrong on the way.
-/

namespace ExactlyOne

namespace Filter

/-! ## Errors of a run -/

def phrase (parts : List String) : String := "Error(Str([" ++ ", ".intercalate parts ++ "]))"

def textPart (s : String) : String := "Str(" ++ quotedText s ++ ")"

def valuePart (value : Value) : String := "Val(" ++ value.describe ++ ")"

def EvalError.message : EvalError → String
  | .noIndex value key =>
    phrase [textPart "cannot index ", valuePart value, textPart " with ", valuePart key]
  | .unsuitable value purpose =>
    phrase [textPart "cannot use ", valuePart value, textPart " as ", textPart purpose.name]
  | .raised value => "Error(" ++ valuePart value ++ ")"

/-! ## Errors of a text -/

def Lack.text : Lack → String
  | .digit => "Digit"
  | .name => "Ident"
  | .closing opening => "Delim(" ++ quotedText (String.singleton opening) ++ ")"
  | .escape => "Escape"
  | .unicode => "Unicode"
  | .token => "Token"

def Expected.text : Expected → String
  | .term => "Term"
  | .key => "Key"
  | .pattern => "Pattern"
  | .commaOrBrace => "CommaOrRBrace"
  | .semicolonOrParenthesis => "SemicolonOrRParen"
  | .nothing => "Nothing"
  | .symbol name => "Just(" ++ quotedText name ++ ")"

def pairText (wanted found : String) : String := "(" ++ wanted ++ ", " ++ quotedText found ++ ")"

def refusal (stage : String) (pairs : List String) : Fault :=
  .unreadable [stage ++ "([" ++ ", ".intercalate pairs ++ "])"]

def lexicalFault (errors : List LexError) : Fault :=
  refusal "Lex" (errors.map fun e => pairText e.lack.text e.rest)

def grammaticalFault (faults : List SyntaxFault) : Fault :=
  refusal "Parse" (faults.map fun f => pairText f.expected.text f.found)

def Missing.named : Missing → String × String
  | .filter name arity => (name, "Filter(" ++ toString arity ++ ")")
  | .library name => (name, "Mod")
  | .variable name => (name, "Var")

/-! ## Running -/

def parse (source : String) : Except Fault Filter := do
  let tokens ← (tokens source).mapError lexicalFault
  let filter ← (ofTokens tokens).mapError grammaticalFault
  match filter.missing [] with
  | [] => pure filter
  | missing => .error (.undefined (missing.map Missing.named))

def fragment : Language where
  compile source := do
    let filter ← parse source
    pure fun input => (filter.outputs [] (.ofJson input)).map fun output =>
      (output.map Value.toJson).mapError EvalError.message

/-- The run of a filter that is written in the fragment. -/
def run : (source : String) → (input : Json) → Except Fault (List Json) := fragment.run

end Filter

end ExactlyOne
