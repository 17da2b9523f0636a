import ExactlyOne.Number.Power

/-!
Finite binary floating-point numbers of 64 bits, as exact values.

A value is `± mantissa · 2 ^ exponent`. `Binary64.ofRatio` rounds a positive fraction to the
nearest value, a tie to the even mantissa; products and quotients round once.
-/

namespace ExactlyOne

structure Binary64 where
  negative : Bool
  mantissa : Nat
  exponent : Int
  deriving DecidableEq, Repr

namespace Binary64

def precision : Nat := 53

def minExponent : Int := -1074

def maxExponent : Int := 971

def zero (negative : Bool) : Binary64 := ⟨negative, 0, 0⟩

def isZero (x : Binary64) : Bool := x.mantissa == 0

def neg (x : Binary64) : Binary64 := { x with negative := !x.negative }

/-- The quotient to the nearest natural number, a tie to the even one. -/
def roundQuotient (num den : Nat) : Nat :=
  let q := num / den
  let r := 2 * (num % den)
  if r < den then q else if den < r then q + 1 else q + q % 2

def scaled (num den : Nat) (e : Int) : Nat × Nat :=
  if 0 ≤ e then (num, den * twoTo e.toNat) else (num * twoTo (-e).toNat, den)

/-- The exponent at which `num / den` has a mantissa of full precision, or the least exponent. -/
def exponentFor (num den : Nat) : Int :=
  let k : Int := (Nat.log2 num : Int) - Nat.log2 den
  let (n, d) := scaled num den k
  let top := if d ≤ n then k else k - 1
  max (top - (precision - 1)) minExponent

/-- The nearest value to `num / den`; nothing if that is beyond the largest one. -/
def ofRatio (negative : Bool) (num den : Nat) : Option Binary64 :=
  if num = 0 then some (zero negative) else
  let e := exponentFor num den
  let (n, d) := scaled num den e
  let m := roundQuotient n d
  let (m, e) := if m = twoTo precision then (twoTo (precision - 1), e + 1) else (m, e)
  if maxExponent < e then none else some (if m = 0 then zero negative else ⟨negative, m, e⟩)

def ofNat (n : Nat) : Option Binary64 := ofRatio false n 1

def magnitude (x : Binary64) : Nat × Nat :=
  if 0 ≤ x.exponent then (x.mantissa * twoTo x.exponent.toNat, 1)
  else (x.mantissa, twoTo (-x.exponent).toNat)

def mul (x y : Binary64) : Option Binary64 :=
  let (a, b) := x.magnitude
  let (c, d) := y.magnitude
  ofRatio (x.negative != y.negative) (a * c) (b * d)

def div (x y : Binary64) : Option Binary64 :=
  let (a, b) := x.magnitude
  let (c, d) := y.magnitude
  ofRatio (x.negative != y.negative) (a * d) (b * c)

def sameValue (x y : Binary64) : Bool := (x.isZero && y.isZero) || x == y

end Binary64

end ExactlyOne
