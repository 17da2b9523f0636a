import ExactlyOne.Number.Notation

/-!
Binary numbers with the two infinities, and the decimal texts that they are read from.

Every decimal has a nearest value (`Decimal.nearest`): what is beyond the largest finite one is
infinite. Powers of ten that are out of reach are never formed.
-/

namespace ExactlyOne

inductive Extended where
  | finite (value : Binary64)
  | infinite (negative : Bool)
  deriving DecidableEq, Repr

namespace Extended

def neg : Extended → Extended
  | .finite x => .finite x.neg
  | .infinite negative => .infinite !negative

def abs : Extended → Extended
  | .finite x => .finite { x with negative := false }
  | .infinite _ => .infinite false

def sameValue : Extended → Extended → Bool
  | .finite x, .finite y => x.sameValue y
  | .infinite a, .infinite b => a == b
  | _, _ => false

def text (format : NumberFormat) : Extended → String
  | .finite x => format.text x
  | .infinite negative => if negative then "-inf" else "inf"

def ofRatio (negative : Bool) (num den : Nat) : Extended :=
  ((Binary64.ofRatio negative num den).map .finite).getD (.infinite negative)

def ofInt (n : Int) : Extended := ofRatio (n < 0) n.natAbs 1

end Extended

namespace Decimal

/-- No power of ten beyond this one, up or down, is needed to round a decimal. -/
def reach : Nat := 400

/-- The nearest value to a decimal with a sign. A decimal of `b` bits is below `10 ^ b` times its
power of ten. -/
def nearest (negative : Bool) (d : Decimal) : Extended :=
  if d.digits = 0 then .finite (.zero negative)
  else if reach < d.exponent then .infinite negative
  else if d.exponent + (Nat.log2 d.digits + 1 : Nat) < -(reach : Int) then .finite (.zero negative)
  else if 0 ≤ d.exponent then .ofRatio negative (d.digits * tenTo d.exponent.toNat) 1
  else .ofRatio negative d.digits (tenTo (-d.exponent).toNat)

def digitsValue (digits : List Char) : Nat := digits.foldl (fun n c => 10 * n + (c.toNat - 48)) 0

def exponentValue : List Char → Int
  | '+' :: digits => digitsValue digits
  | '-' :: digits => -(digitsValue digits)
  | digits => digitsValue digits

def isExponentMark (c : Char) : Bool := c == 'e' || c == 'E'

def ofChars (s : List Char) : Decimal :=
  let digits := s.takeWhile fun c => !isExponentMark c
  let exponent := exponentValue ((s.dropWhile fun c => !isExponentMark c).drop 1)
  let whole := digits.takeWhile (· != '.')
  let fraction := (digits.dropWhile (· != '.')).drop 1
  ⟨digitsValue (whole ++ fraction), exponent - fraction.length⟩

end Decimal

def Extended.ofText (s : String) : Extended :=
  match s.toList with
  | '-' :: rest => (Decimal.ofChars rest).nearest true
  | rest => (Decimal.ofChars rest).nearest false

end ExactlyOne
