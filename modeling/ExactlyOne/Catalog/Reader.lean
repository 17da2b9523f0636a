import ExactlyOne.Catalog
import ExactlyOne.Json.Printer
import ExactlyOne.Json.Skip
import ExactlyOne.Text.Quoted

/-!
Reading a catalog.

A catalog is an object with a member for each of its sections, or an array of the sections in
order; a section that is missing has no types, and members of other names are passed over. The
reader looks at the first value of a text only. A refusal names the place in the catalog and the
position in the text.
-/

namespace ExactlyOne

namespace Catalog

inductive Step where
  | key (name : String)
  | index (position : Nat)
  | unknown
  deriving DecidableEq, Repr

def Step.text : Step → String
  | .key name => name
  | .index position => "[" ++ toString position ++ "]"
  | .unknown => "?"

def Step.textBehind : Step → String
  | .index position => Step.text (.index position)
  | step => "." ++ step.text

/-- Keys have points between them, the root is a point. -/
def trackText : List Step → String
  | [] => "."
  | first :: rest => first.text ++ String.join (rest.map Step.textBehind)

inductive Found where
  | scalar (value : Json)
  | sequence
  | map
  deriving Repr

def Found.text : Found → String
  | .scalar .null => "null"
  | .scalar (.bool b) => "boolean `" ++ (if b then "true" else "false") ++ "`"
  | .scalar (.number (.int n)) => "integer `" ++ toString n ++ "`"
  | .scalar (.number (.float x)) => "floating point `" ++ NumberFormat.json.text x ++ "`"
  | .scalar (.text s) => "string " ++ quotedText s
  | .scalar (.array _) | .sequence => "sequence"
  | .scalar (.object _) | .map => "map"

inductive Wanted where
  | catalog
  | map
  | sequence
  | text
  deriving DecidableEq, Repr

def Wanted.description : Wanted → String
  | .catalog => "struct Catalog"
  | .map => "a map"
  | .sequence => "a sequence"
  | .text => "a string"

inductive Cause where
  | json (cause : Json.Cause)
  | wrongType (found : Found) (wanted : Wanted)
  | repeatedSection (part : Section)
  deriving Repr

def Cause.message : Cause → String
  | .json cause => cause.message
  | .wrongType found wanted =>
    "invalid type: " ++ found.text ++ ", expected " ++ wanted.description
  | .repeatedSection part => "duplicate field `" ++ part.key ++ "`"

/-- A cause, the steps to the value in which it was found, and the number of bytes that were not
passed then. -/
structure Failure where
  track : List Step
  cause : Cause
  unread : Nat
  deriving Repr

def Failure.message (bytes : List UInt8) (f : Failure) : String :=
  "invalid catalog JSON at JSON path " ++ trackText f.track ++ " → " ++ f.cause.message ++
    (Json.Position.ofUnread bytes f.unread).describe

def located {α : Type} (track : List Step) : Except Json.Failure α → Except Failure α
  | .ok value => .ok value
  | .error f => .error ⟨track, .json f.cause, f.unread⟩

def inside {α : Type} (step : Step) : Except Failure α → Except Failure α
  | .ok value => .ok value
  | .error f => .error { f with track := step :: f.track }

def refuse {α : Type} (wanted : Wanted) (b : UInt8) (rest : List UInt8) :
    Except Failure (α × List UInt8) :=
  if b = Byte.openBracket then .error ⟨[], .wrongType .sequence wanted, rest.length + 1⟩
  else if b = Byte.openBrace then .error ⟨[], .wrongType .map wanted, rest.length + 1⟩
  else do
    let (value, rest) ← located [] (Json.readScalar b rest)
    .error ⟨[], .wrongType (.scalar value) wanted, rest.length⟩

/-- A value that begins with a given byte, read behind it. -/
def readFrom {α : Type} (opening : UInt8) (wanted : Wanted)
    (body : List UInt8 → Except Failure (α × List UInt8)) (s : List UInt8) :
    Except Failure (α × List UInt8) :=
  match Json.skipSpace s with
  | [] => located [] (.error (.behind .endInValue []))
  | b :: rest => if b = opening then body rest else refuse wanted b rest

def readName : List UInt8 → Except Failure (String × List UInt8) :=
  readFrom Byte.quote .text fun rest => located [] (Json.readString rest)

def readItems {α : Type} (item : List UInt8 → Except Failure (α × List UInt8)) :
    (fuel position : Nat) → List UInt8 → Except Failure (List α × List UInt8)
  | 0, _, s => located [] (.error (.before .endInValue s))
  | fuel + 1, position, s => do
    let (value, rest) ← inside (.index position) (item s)
    let (next, rest) ← located [] (Json.readAfterItem rest)
    match next with
    | .done => pure ([value], rest)
    | .another => do
      let (values, rest) ← readItems item fuel (position + 1) rest
      pure (value :: values, rest)

def readSequence {α : Type} (item : List UInt8 → Except Failure (α × List UInt8)) :
    List UInt8 → Except Failure (List α × List UInt8) :=
  readFrom Byte.openBracket .sequence fun rest => do
    let (next, rest) ← located [] (Json.readFirstItem rest)
    match next with
    | .done => pure ([], rest)
    | .another => readItems item rest.length 0 rest

/-- The entries up to the closing brace, behind the quote of the first key. -/
def readPairs {α : Type} (value : List UInt8 → Except Failure (α × List UInt8)) :
    (fuel : Nat) → List UInt8 → Except Failure (List (String × α) × List UInt8)
  | 0, s => located [] (.error (.before .endInValue s))
  | fuel + 1, s => do
    let (key, rest) ← located [.unknown] (Json.readString s)
    let rest ← located [] (Json.readColon rest)
    let (v, rest) ← inside (.key key) (value rest)
    let (next, rest) ← located [.unknown] (Json.readAfterEntry rest)
    match next with
    | .done => pure ([(key, v)], rest)
    | .another => do
      let (pairs, rest) ← readPairs value fuel rest
      pure ((key, v) :: pairs, rest)

def readMap {α : Type} (value : List UInt8 → Except Failure (α × List UInt8)) :
    List UInt8 → Except Failure (List (String × α) × List UInt8) :=
  readFrom Byte.openBrace .map fun rest => do
    let (next, rest) ← located [.unknown] (Json.readFirstEntry rest)
    match next with
    | .done => pure ([], rest)
    | .another => do
      let (pairs, rest) ← readPairs value rest.length rest
      pure (Entries.ofPairs pairs, rest)

def readTypes : List UInt8 → Except Failure (List (String × List Group) × List UInt8) :=
  readMap (readSequence (readSequence readName))

structure Sections where
  resources : Option (List (String × List Group))
  properties : Option (List (String × List Group))
  deriving DecidableEq, Repr

namespace Sections

def none : Sections := ⟨.none, .none⟩

def get? (sections : Sections) : Section → Option (List (String × List Group))
  | .resources => sections.resources
  | .properties => sections.properties

def set (sections : Sections) (types : List (String × List Group)) : Section → Sections
  | .resources => { sections with resources := some types }
  | .properties => { sections with properties := some types }

def catalog (sections : Sections) : Catalog :=
  ⟨sections.resources.getD [], sections.properties.getD []⟩

end Sections

/-- The refusal of a section that was read before: behind its key, the spaces there and a closing
brace. -/
def refuseRepeated {α : Type} (part : Section) (s : List UInt8) : Except Failure (α × List UInt8) :=
  let unread := match Json.skipSpace s with
    | [] => 0
    | b :: rest => if b = Byte.closeBrace then rest.length else rest.length + 1
  .error ⟨[], .repeatedSection part, unread⟩

def readMember (sections : Sections) (key : String) (s : List UInt8) :
    Except Failure (Sections × List UInt8) := do
  match Section.ofKey? key with
  | none => do
    let rest ← located [] (Json.readColon s)
    let rest ← located [.key key] (Json.skipValue (Json.enoughFuel rest) rest)
    pure (sections, rest)
  | some part =>
    if (sections.get? part).isSome then refuseRepeated part s
    else do
      let rest ← located [] (Json.readColon s)
      let (types, rest) ← inside (.key key) (readTypes rest)
      pure (sections.set types part, rest)

def readMembers : (fuel : Nat) → Sections → List UInt8 → Except Failure (Sections × List UInt8)
  | 0, _, s => located [] (.error (.before .endInValue s))
  | fuel + 1, sections, s => do
    let (key, rest) ← located [.unknown] (Json.readString s)
    let (sections, rest) ← readMember sections key rest
    let (next, rest) ← located [.unknown] (Json.readAfterEntry rest)
    match next with
    | .done => pure (sections, rest)
    | .another => readMembers fuel sections rest

def readSectionsEnd (s : List UInt8) : Except Json.Failure (List UInt8) :=
  match Json.skipSpace s with
  | [] => .error (.behind .endInList [])
  | b :: rest =>
    if b = Byte.closeBracket then .ok rest
    else if b = Byte.comma then
      let s := Json.skipSpace rest
      if s.head? = some Byte.closeBracket then .error (.behind .trailingComma s)
      else .error (.behind .trailingCharacters s)
    else .error (.behind .trailingCharacters (b :: rest))

def readSections (s : List UInt8) : Except Failure (Sections × List UInt8) := do
  let (next, rest) ← located [] (Json.readFirstItem s)
  match next with
  | .done => pure (.none, rest)
  | .another => do
    let (resources, rest) ← inside (.index 0) (readTypes rest)
    let (next, rest) ← located [] (Json.readAfterItem rest)
    match next with
    | .done => pure (⟨some resources, .none⟩, rest)
    | .another => do
      let (properties, rest) ← inside (.index 1) (readTypes rest)
      let rest ← located [] (readSectionsEnd rest)
      pure (⟨some resources, some properties⟩, rest)

def readCatalog (s : List UInt8) : Except Failure (Catalog × List UInt8) := do
  let (sections, rest) ← match Json.skipSpace s with
    | [] => located [] (.error (.behind .endInValue []))
    | b :: rest =>
      if b = Byte.openBracket then readSections rest
      else if b = Byte.openBrace then do
        let (next, rest) ← located [.unknown] (Json.readFirstEntry rest)
        match next with
        | .done => pure (.none, rest)
        | .another => readMembers rest.length .none rest
      else refuse .catalog b rest
  pure (sections.catalog, rest)

/-- The catalog at the beginning of a text. -/
def parseBytes (bytes : List UInt8) : Except Failure Catalog := (readCatalog bytes).map Prod.fst

def parse (s : String) : Except Failure Catalog := parseBytes (utf8 s)

end Catalog

end ExactlyOne
