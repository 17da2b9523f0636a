import ExactlyOne.Json.Value

/-!
Pointers into a JSON document: texts that name one value by the keys and indexes that lead to it.
-/

namespace ExactlyOne

namespace Json

/-- A key in which `~1` stands for a slash and `~0` for a tilde. -/
def unescapeKey : List Char → List Char
  | '~' :: '1' :: rest => '/' :: unescapeKey rest
  | '~' :: '0' :: rest => '~' :: unescapeKey rest
  | c :: rest => c :: unescapeKey rest
  | [] => []

/-- An index has digits only, and no zero in front of others. -/
def indexOf? (key : List Char) : Option Nat :=
  if key.isEmpty || !key.all Char.isDigit || (key.head? == some '0' && key.length != 1) then none
  else (String.ofList key).toNat?

def step? (value : Json) (key : List Char) : Option Json :=
  match value with
  | .object entries => Entries.find? (String.ofList key) entries
  | .array items => (indexOf? key).bind fun n => items[n]?
  | _ => none

/-- The value that a pointer names. The empty pointer names the whole document; any other begins
with a slash. -/
def pointed? (value : Json) (pointer : String) : Option Json :=
  match pointer.splitOn "/" with
  | [""] => some value
  | "" :: keys => keys.foldlM (fun v key => v.step? (unescapeKey key.toList)) value
  | _ => none

end Json

end ExactlyOne
