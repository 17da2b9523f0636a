import ExactlyOne.Json.Lexer

/-!
Reading a JSON document.

`Json.parse` reads a whole text: one value with spaces around it. The recursion is bounded by the
number of bytes; arrays and objects may be nested `Json.maxDepth` deep.
-/

namespace ExactlyOne

namespace Json

def maxDepth : Nat := 127

def readScalar (b : UInt8) (rest : List UInt8) : Except Failure (Json × List UInt8) :=
  if b = Byte.ofChar 'n' then do
    let rest ← readWord (utf8 "ull") rest
    pure (.null, rest)
  else if b = Byte.ofChar 't' then do
    let rest ← readWord (utf8 "rue") rest
    pure (.bool true, rest)
  else if b = Byte.ofChar 'f' then do
    let rest ← readWord (utf8 "alse") rest
    pure (.bool false, rest)
  else if b = Byte.minus then do
    let (n, rest) ← readNumber true rest
    pure (.number n, rest)
  else if Byte.isDigit b then do
    let (n, rest) ← readNumber false (b :: rest)
    pure (.number n, rest)
  else if b = Byte.quote then do
    let (s, rest) ← readString rest
    pure (.text s, rest)
  else .error (.behind .noValue (b :: rest))

def readColon (s : List UInt8) : Except Failure (List UInt8) :=
  match skipSpace s with
  | [] => .error (.behind .endInObject [])
  | b :: rest => if b = Byte.colon then .ok rest else .error (.behind .noColon (b :: rest))

inductive AfterItem where
  | another
  | done
  deriving DecidableEq, Repr

def readAfterItem (s : List UInt8) : Except Failure (AfterItem × List UInt8) :=
  match skipSpace s with
  | [] => .error (.behind .endInList [])
  | b :: rest =>
    if b = Byte.closeBracket then .ok (.done, rest)
    else if b = Byte.comma then
      match skipSpace rest with
      | [] => .error (.behind .endInValue [])
      | c :: tail =>
        if c = Byte.closeBracket then .error (.behind .trailingComma (c :: tail))
        else .ok (.another, c :: tail)
    else .error (.behind .noListEnd (b :: rest))

/-- Another entry begins with the quote of its key, which is passed. -/
def readAfterEntry (s : List UInt8) : Except Failure (AfterItem × List UInt8) :=
  match skipSpace s with
  | [] => .error (.behind .endInObject [])
  | b :: rest =>
    if b = Byte.closeBrace then .ok (.done, rest)
    else if b = Byte.comma then
      match skipSpace rest with
      | [] => .error (.behind .endInValue [])
      | c :: tail =>
        if c = Byte.quote then .ok (.another, tail)
        else if c = Byte.closeBrace then .error (.behind .trailingComma (c :: tail))
        else .error (.behind .keyNotText (c :: tail))
    else .error (.behind .noObjectEnd (b :: rest))

def readFirstItem (s : List UInt8) : Except Failure (AfterItem × List UInt8) :=
  match skipSpace s with
  | [] => .error (.behind .endInList [])
  | b :: rest => if b = Byte.closeBracket then .ok (.done, rest) else .ok (.another, b :: rest)

def readFirstEntry (s : List UInt8) : Except Failure (AfterItem × List UInt8) :=
  match skipSpace s with
  | [] => .error (.behind .endInObject [])
  | b :: rest =>
    if b = Byte.closeBrace then .ok (.done, rest)
    else if b = Byte.quote then .ok (.another, rest)
    else .error (.behind .keyNotText (b :: rest))

mutual

def readValue : (fuel depth : Nat) → List UInt8 → Except Failure (Json × List UInt8)
  | 0, _, s => .error (.before .endInValue s)
  | fuel + 1, depth, s =>
    match skipSpace s with
    | [] => .error (.behind .endInValue [])
    | b :: rest =>
      if b = Byte.openBracket then
        match depth with
        | 0 => .error (.behind .tooDeep (b :: rest))
        | depth + 1 => do
          let (next, rest) ← readFirstItem rest
          let (items, rest) ← match next with
            | .done => pure ([], rest)
            | .another => readItems fuel depth rest
          pure (.array items, rest)
      else if b = Byte.openBrace then
        match depth with
        | 0 => .error (.behind .tooDeep (b :: rest))
        | depth + 1 => do
          let (next, rest) ← readFirstEntry rest
          let (pairs, rest) ← match next with
            | .done => pure ([], rest)
            | .another => readPairs fuel depth rest
          pure (.object (Entries.ofPairs pairs), rest)
      else readScalar b rest

def readItems : (fuel depth : Nat) → List UInt8 → Except Failure (List Json × List UInt8)
  | 0, _, s => .error (.before .endInValue s)
  | fuel + 1, depth, s => do
    let (item, rest) ← readValue fuel depth s
    let (next, rest) ← readAfterItem rest
    match next with
    | .done => pure ([item], rest)
    | .another => do
      let (items, rest) ← readItems fuel depth rest
      pure (item :: items, rest)

def readPairs : (fuel depth : Nat) → List UInt8 →
    Except Failure (List (String × Json) × List UInt8)
  | 0, _, s => .error (.before .endInValue s)
  | fuel + 1, depth, s => do
    let (key, rest) ← readString s
    let rest ← readColon rest
    let (value, rest) ← readValue fuel depth rest
    let (next, rest) ← readAfterEntry rest
    match next with
    | .done => pure ([(key, value)], rest)
    | .another => do
      let (pairs, rest) ← readPairs fuel depth rest
      pure ((key, value) :: pairs, rest)

end

/-- Every call passes a byte or leaves one level, so twice the number of bytes is enough. -/
def enoughFuel (bytes : List UInt8) : Nat := 2 * bytes.length + 2

def parseBytes (bytes : List UInt8) : Except Failure Json := do
  let (value, rest) ← readValue (enoughFuel bytes) maxDepth bytes
  match skipSpace rest with
  | [] => pure value
  | rest => .error (.behind .trailingCharacters rest)

def parse (s : String) : Except Failure Json := parseBytes (utf8 s)

end Json

end ExactlyOne
