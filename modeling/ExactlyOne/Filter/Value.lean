import ExactlyOne.Json.Printer
import ExactlyOne.Json.Reader
import ExactlyOne.Number.Extended
import ExactlyOne.Text.Quoted

/-!
The values that filters work on.

They are those of JSON but for the numbers. An integer of 64 bits with a sign is exact; any other
number keeps the text in which it is written until something is computed from it.
-/

namespace ExactlyOne

namespace Filter

inductive Number where
  | int (value : Int)
  | written (source : String)
  | real (value : Extended)
  deriving DecidableEq, Repr

inductive Value where
  | null
  | bool (value : Bool)
  | number (value : Number)
  | text (value : String)
  | array (items : List Value)
  | object (entries : List (String × Value))
  deriving Repr, Inhabited

/-! ## Numbers -/

namespace Number

def fits (n : Int) : Bool := -(twoTo 63 : Int) ≤ n && n < (twoTo 63 : Int)

/-- The integer of 64 bits that is the same but for a multiple of `2 ^ 64`. -/
def wrap (n : Int) : Int := Int.bmod n (twoTo 64)

def ofInt (n : Int) : Number := if fits n then .int n else .written (toString n)

def ofSource (source : String) : Number :=
  if source.toList.all Char.isDigit then
    let n : Int := Decimal.digitsValue source.toList
    if fits n then .int n else .written source
  else .written source

def toExtended : Number → Extended
  | .int n => .ofInt n
  | .written source => .ofText source
  | .real x => x

/-- Equality of values; two integers are compared exactly. -/
def same : Number → Number → Bool
  | .int a, .int b => a == b
  | a, b => a.toExtended.sameValue b.toExtended

def neg : Number → Number
  | .int n => .int (wrap (-n))
  | n => .real n.toExtended.neg

def abs : Number → Number
  | .int n => .int (wrap n.natAbs)
  | n => .real n.toExtended.abs

def describe : Number → String
  | .int n => "Int(" ++ toString n ++ ")"
  | .written source => "Num(" ++ quotedText source ++ ")"
  | .real x => "Float(" ++ x.text .plain ++ ")"

def ofJson : JsonNumber → Number
  | .int n => ofInt n
  | .float x => .written (NumberFormat.json.text x)

/-- What is written is read as a JSON text is; what JSON has no number for is null. -/
def toJson : Number → Json
  | .int n => .int n
  | .written source =>
    match Json.parse source with
    | .ok value => value
    | .error _ => .null
  | .real (.finite x) => .number (.float x)
  | .real (.infinite _) => .null

end Number

/-! ## Values -/

namespace Value

def int (n : Int) : Value := .number (.int n)

def isTrue : Value → Bool
  | .null => false
  | .bool b => b
  | _ => true

mutual

def ofJson : Json → Value
  | .null => .null
  | .bool b => .bool b
  | .number n => .number (.ofJson n)
  | .text s => .text s
  | .array items => .array (ofItems items)
  | .object entries => .object (ofEntries entries)

def ofItems : List Json → List Value
  | [] => []
  | item :: rest => ofJson item :: ofItems rest

def ofEntries : List (String × Json) → List (String × Value)
  | [] => []
  | (key, value) :: rest => (key, ofJson value) :: ofEntries rest

end

mutual

def toJson : Value → Json
  | .null => .null
  | .bool b => .bool b
  | .number n => n.toJson
  | .text s => .text s
  | .array items => .array (itemsToJson items)
  | .object entries => .object (entriesToJson entries)

def itemsToJson : List Value → List Json
  | [] => []
  | item :: rest => item.toJson :: itemsToJson rest

def entriesToJson : List (String × Value) → List (String × Json)
  | [] => []
  | (key, value) :: rest => (key, value.toJson) :: entriesToJson rest

end

mutual

/-- Equality of values; the order of keys does not count. -/
def same : Value → Value → Bool
  | .null, .null => true
  | .bool a, .bool b => a == b
  | .number a, .number b => a.same b
  | .text a, .text b => a == b
  | .array a, .array b => sameItems a b
  | .object a, .object b => a.length == b.length && sameEntries a b
  | _, _ => false

def sameItems : List Value → List Value → Bool
  | [], [] => true
  | a :: as, b :: bs => same a b && sameItems as bs
  | _, _ => false

def sameEntries : List (String × Value) → List (String × Value) → Bool
  | [], _ => true
  | (k, a) :: rest, others =>
    (match Entries.find? k others with
      | some b => same a b
      | none => false) && sameEntries rest others

end

mutual

def describe : Value → String
  | .null => "Null"
  | .bool b => "Bool(" ++ (if b then "true" else "false") ++ ")"
  | .number n => n.describe
  | .text s => "Str(" ++ quotedText s ++ ")"
  | .array items => "Arr([" ++ ", ".intercalate (describeItems items) ++ "])"
  | .object entries => "Obj(\x7b" ++ ", ".intercalate (describeEntries entries) ++ "\x7d)"

def describeItems : List Value → List String
  | [] => []
  | item :: rest => item.describe :: describeItems rest

def describeEntries : List (String × Value) → List String
  | [] => []
  | (key, value) :: rest => (quotedText key ++ ": " ++ value.describe) :: describeEntries rest

end

end Value

end Filter

end ExactlyOne
