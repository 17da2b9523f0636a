import ExactlyOne.Number.Shortest

/-!
The written form of numbers.

A binary number is written with its shortest digits: positionally, with a point and at least one
digit after it, where its leading digit stands for a power of ten that the format lets be written
so, and with an exponent elsewhere.
-/

namespace ExactlyOne

/-- Which leading powers of ten are written without an exponent, and the mark of an exponent that is
not negative. -/
structure NumberFormat where
  lowestPositional : Int
  highestPositional : Int
  exponentMark : String
  deriving DecidableEq, Repr

namespace NumberFormat

def json : NumberFormat := ⟨-5, 15, "e+"⟩

def plain : NumberFormat := ⟨-4, 15, "e"⟩

def normalize : Nat → Decimal → Decimal
  | 0, d => d
  | fuel + 1, d =>
    if d.digits ≠ 0 ∧ d.digits % 10 = 0 then normalize fuel ⟨d.digits / 10, d.exponent + 1⟩ else d

def zeros (n : Nat) : String := String.ofList (List.replicate n '0')

def positional (digits : List Char) (exponent : Int) : String :=
  if 0 ≤ exponent then String.ofList digits ++ zeros exponent.toNat ++ ".0"
  else
    let places := (-exponent).toNat
    if places < digits.length then
      let whole := digits.length - places
      String.ofList (digits.take whole) ++ "." ++ String.ofList (digits.drop whole)
    else "0." ++ zeros (places - digits.length) ++ String.ofList digits

def scientific (format : NumberFormat) (digits : List Char) (leading : Int) : String :=
  let exponent := (if 0 ≤ leading then format.exponentMark else "e") ++ toString leading
  match digits with
  | [] => "0" ++ exponent
  | [d] => String.ofList [d] ++ exponent
  | d :: rest => String.ofList [d] ++ "." ++ String.ofList rest ++ exponent

def magnitude (format : NumberFormat) (x : Binary64) : String :=
  if x.isZero then "0.0" else
  let d := normalize 20 x.shortest
  let digits := Nat.toDigits 10 d.digits
  let leading := d.exponent + digits.length - 1
  if format.lowestPositional ≤ leading ∧ leading ≤ format.highestPositional
  then positional digits d.exponent else format.scientific digits leading

def text (format : NumberFormat) (x : Binary64) : String :=
  (if x.negative then "-" else "") ++ format.magnitude x

end NumberFormat

end ExactlyOne
