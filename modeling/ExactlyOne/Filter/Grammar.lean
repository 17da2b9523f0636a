import ExactlyOne.Filter
import ExactlyOne.Filter.Token

/-!
The grammar of filters.

From the loosest to the tightest: `|` and `as $x |`, then `,`, then `//`, then `==`, then a term
with the paths behind it. Inside braces a value holds no comma.

A fault ends the reading of the block in which it is found, and of no other one: a text is refused
with all its faults.
-/

namespace ExactlyOne

namespace Filter

inductive Expected where
  | term
  | key
  | pattern
  | commaOrBrace
  | semicolonOrParenthesis
  | nothing
  | symbol (name : String)
  deriving DecidableEq, Repr

/-- What is wanted, and the token that is there instead; an empty text at the end. -/
structure SyntaxFault where
  expected : Expected
  found : String
  deriving DecidableEq, Repr

/-! ## Reading tokens -/

/-- Takes tokens from the front of a list. The faults of blocks are kept, any other one ends the
reading. -/
abbrev Reading := StateT (List Token) (ExceptT SyntaxFault (StateM (List SyntaxFault)))

namespace Reading

def refuse {α : Type} (expected : Expected) : Reading α := do
  throw ⟨expected, ((← get).head?.map Token.source).getD ""⟩

def accept (name : String) : Reading Bool := do
  match ← get with
  | .symbol s :: rest =>
    if s = name then
      set rest
      pure true
    else pure false
  | _ => pure false

def expect (name : String) : Reading Unit := do
  if !(← accept name) then refuse (.symbol name)

/-- Passes question marks; whether there are any. -/
def acceptOptional : Reading Bool := do
  let tokens ← get
  let rest := tokens.dropWhile fun token =>
    match token with
    | .symbol "?" => true
    | _ => false
  set rest
  pure (rest.length != tokens.length)

/-- Reads the tokens of a block. A fault among them is kept, with some value in the place of the
block. -/
def inside {α : Type} (tokens : List Token) (otherwise : α) (read : Reading α) : Reading α :=
  fun rest => do
    match (read.run tokens).run (← getThe (List SyntaxFault)) with
    | (.ok (value, _), faults) => do
      set faults
      pure (value, rest)
    | (.error fault, faults) => do
      set (faults ++ [fault])
      pure (otherwise, rest)

end Reading

open Reading

/-! ## Words -/

def wordFilter (name : String) : Filter :=
  if name = "null" then .literal .null
  else if name = "true" then .literal (.bool true)
  else if name = "false" then .literal (.bool false)
  else .call name []

def dottedKey? (name : String) : Option String :=
  match name.toList with
  | '.' :: c :: rest => if isNameStart c then some (String.ofList (c :: rest)) else none
  | _ => none

def textLiteral (s : String) : Filter := .literal (.text s)

def withAccesses (head : Filter) (accesses : List Access) : Filter :=
  if accesses.isEmpty then head else .path head accesses

def member (key : Filter) : Filter := .path .identity [.index key false]

/-! ## Rules -/

inductive Place where
  | anywhere
  | insideBraces
  deriving DecidableEq, Repr

mutual

def parsePipe (place : Place) : (fuel : Nat) → Reading Filter
  | 0 => refuse .term
  | fuel + 1 => do
    let first ← parseComma place fuel
    match ← get with
    | .symbol "|" :: rest => do
      set rest
      pure (.pipe first (← parsePipe place fuel))
    | .word "as" :: .variable name :: rest => do
      set rest
      expect "|"
      pure (.bind first name (← parsePipe place fuel))
    | .word "as" :: rest => do
      set rest
      refuse .pattern
    | _ => pure first

def parseComma (place : Place) : (fuel : Nat) → Reading Filter
  | 0 => refuse .term
  | fuel + 1 => do
    let first ← parseAlternative fuel
    if place = .anywhere then
      if ← accept "," then pure (.both first (← parseComma place fuel)) else pure first
    else pure first

def parseAlternative : (fuel : Nat) → Reading Filter
  | 0 => refuse .term
  | fuel + 1 => do
    let first ← parseEqual fuel (← parseTerm fuel)
    if ← accept "//" then pure (.alternative first (← parseAlternative fuel)) else pure first

def parseEqual : (fuel : Nat) → Filter → Reading Filter
  | 0, _ => refuse .term
  | fuel + 1, first => do
    if ← accept "==" then parseEqual fuel (.equal first (← parseTerm fuel)) else pure first

def parseTerm : (fuel : Nat) → Reading Filter
  | 0 => refuse .term
  | fuel + 1 => do
    if ← accept "-" then pure (.negate (← parseTerm fuel))
    else
      let head ← parseHead fuel
      let head := if ← acceptOptional then .attempt head else head
      pure (withAccesses head (← parseAccesses fuel))

/-- A term alone. A point that begins an access is the access of the input. -/
def parseHead : (fuel : Nat) → Reading Filter
  | 0 => refuse .term
  | fuel + 1 => do
    match ← get with
    | .symbol "." :: .text .. :: _ => pure .identity
    | .symbol "." :: rest => do
      set rest
      pure .identity
    | .symbol name :: _ => if (dottedKey? name).isSome then pure .identity else refuse .term
    | .word name :: .block _ '(' tokens :: rest => do
      set rest
      pure (.call name (← inside tokens [] (parseArguments fuel)))
    | .word name :: rest => do
      set rest
      pure (wordFilter name)
    | .variable name :: rest => do
      set rest
      pure (.variable name)
    | .number source :: rest => do
      set rest
      pure (.literal (.number (.ofSource source)))
    | .text _ value :: rest => do
      set rest
      pure (textLiteral value)
    | .block _ '[' [_] :: rest => do
      set rest
      pure (.literal (.array []))
    | .block _ '[' tokens :: rest => do
      set rest
      pure (.collect (← inside tokens .identity (parseClosed "]" fuel)))
    | .block _ '{' [_] :: rest => do
      set rest
      pure (.object [])
    | .block _ '{' tokens :: rest => do
      set rest
      pure (.object (← inside tokens [] (parseEntries fuel)))
    | .block _ _ tokens :: rest => do
      set rest
      inside tokens .identity (parseClosed ")" fuel)
    | .format _ :: _ => refuse .term
    | [] => refuse .term

def parseClosed (closing : String) : (fuel : Nat) → Reading Filter
  | 0 => refuse .term
  | fuel + 1 => do
    let filter ← parsePipe .anywhere fuel
    expect closing
    pure filter

def parseAccesses : (fuel : Nat) → Reading (List Access)
  | 0 => refuse .term
  | fuel + 1 => do
    match ← get with
    | .block _ '[' [_] :: rest => do
      set rest
      let optional ← acceptOptional
      pure (.iterate optional :: (← parseAccesses fuel))
    | .block _ '[' tokens :: rest => do
      set rest
      let key ← inside tokens .identity (parseClosed "]" fuel)
      let optional ← acceptOptional
      pure (.index key optional :: (← parseAccesses fuel))
    | .symbol "." :: rest => do
      set rest
      let key ← parseQuotedKey
      let optional ← acceptOptional
      pure (.index (textLiteral key) optional :: (← parseAccesses fuel))
    | .symbol name :: rest =>
      match dottedKey? name with
      | none => pure []
      | some key => do
        set rest
        let optional ← acceptOptional
        pure (.index (textLiteral key) optional :: (← parseAccesses fuel))
    | _ => pure []

def parseQuotedKey : Reading String := do
  match ← get with
  | .text _ key :: rest => do
    set rest
    pure key
  | _ => refuse .key

def parseEntryKey : Reading String := do
  match ← get with
  | .word name :: rest => do
    if (library? name).isSome then refuse .key
    set rest
    pure name
  | _ => parseQuotedKey

def parseArguments : (fuel : Nat) → Reading (List Filter)
  | 0 => refuse .term
  | fuel + 1 => do
    let argument ← parsePipe .anywhere fuel
    if ← accept ";" then pure (argument :: (← parseArguments fuel))
    else if ← accept ")" then pure [argument]
    else refuse .semicolonOrParenthesis

def parseEntries : (fuel : Nat) → Reading (List (Filter × Filter))
  | 0 => refuse .key
  | fuel + 1 => do
    let entry ← parseEntry fuel
    if ← accept "," then
      if ← accept "\x7d" then pure [entry] else pure (entry :: (← parseEntries fuel))
    else if ← accept "\x7d" then pure [entry]
    else refuse .commaOrBrace

/-- A key and its value. A key alone takes the value that the input has behind it, and a variable
alone is the value behind its own name. -/
def parseEntry : (fuel : Nat) → Reading (Filter × Filter)
  | 0 => refuse .key
  | fuel + 1 => do
    match ← get with
    | .variable name :: rest => do
      set rest
      if ← accept ":" then pure (.variable name, ← parsePipe .insideBraces fuel)
      else pure (textLiteral (String.ofList (name.toList.drop 1)), .variable name)
    | .block _ '(' tokens :: rest => do
      set rest
      let key ← inside tokens .identity (parseClosed ")" fuel)
      expect ":"
      pure (key, ← parsePipe .insideBraces fuel)
    | _ => do
      let key ← parseEntryKey
      if ← accept ":" then pure (textLiteral key, ← parsePipe .insideBraces fuel)
      else pure (textLiteral key, member (textLiteral key))

end

mutual

def tokenCount : Token → Nat
  | .block _ _ tokens => 1 + tokensCount tokens
  | _ => 1

def tokensCount : List Token → Nat
  | [] => 0
  | token :: rest => tokenCount token + tokensCount rest

end

/-- A whole text is one filter. Each token is reached through fewer than ten rules. -/
def parseWhole (tokens : List Token) : Reading Filter := do
  let filter ← parsePipe .anywhere (10 * (tokensCount tokens + 1))
  if (← get).isEmpty then pure filter else refuse .nothing

def ofTokens (tokens : List Token) : Except (List SyntaxFault) Filter :=
  match ((parseWhole tokens).run tokens).run [] with
  | (.ok (filter, _), []) => .ok filter
  | (.ok _, faults) => .error faults
  | (.error fault, faults) => .error (faults ++ [fault])

end Filter

end ExactlyOne
