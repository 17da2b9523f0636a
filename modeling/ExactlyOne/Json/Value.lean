import ExactlyOne.Entries
import ExactlyOne.Number.Binary64

/-!
JSON values.

An object keeps the order of its keys. A number is an integer or a binary number, two values that
are never equal.
-/

namespace ExactlyOne

inductive JsonNumber where
  | int (value : Int)
  | float (value : Binary64)
  deriving DecidableEq, Repr

inductive Json where
  | null
  | bool (value : Bool)
  | number (value : JsonNumber)
  | text (value : String)
  | array (items : List Json)
  | object (entries : List (String × Json))
  deriving Repr, Inhabited

/-- Equality of numbers of one sort; the two zeros are equal. -/
def JsonNumber.same : JsonNumber → JsonNumber → Bool
  | .int a, .int b => a == b
  | .float a, .float b => a.sameValue b
  | _, _ => false

namespace Json

def int (n : Int) : Json := .number (.int n)

def nat (n : Nat) : Json := .int n

def text? : Json → Option String
  | .text s => some s
  | _ => none

def entries? : Json → Option (List (String × Json))
  | .object entries => some entries
  | _ => none

def get? (key : String) : Json → Option Json
  | .object entries => Entries.find? key entries
  | _ => none

mutual

/-- Equality of values; the order of keys does not count. -/
def same : Json → Json → Bool
  | .null, .null => true
  | .bool a, .bool b => a == b
  | .number a, .number b => a.same b
  | .text a, .text b => a == b
  | .array a, .array b => sameItems a b
  | .object a, .object b => a.length == b.length && sameEntries a b
  | _, _ => false

def sameItems : List Json → List Json → Bool
  | [], [] => true
  | a :: as, b :: bs => same a b && sameItems as bs
  | _, _ => false

def sameEntries : List (String × Json) → List (String × Json) → Bool
  | [], _ => true
  | (k, a) :: rest, others =>
    (match Entries.find? k others with
      | some b => same a b
      | none => false) && sameEntries rest others

end

mutual

/-- Every object has each of its keys once. -/
def UniqueKeys : Json → Prop
  | .array items => UniqueKeysItems items
  | .object entries => (Entries.keys entries).Nodup ∧ UniqueKeysEntries entries
  | _ => True

def UniqueKeysItems : List Json → Prop
  | [] => True
  | item :: rest => item.UniqueKeys ∧ UniqueKeysItems rest

def UniqueKeysEntries : List (String × Json) → Prop
  | [] => True
  | (_, value) :: rest => value.UniqueKeys ∧ UniqueKeysEntries rest

end

end Json

end ExactlyOne
