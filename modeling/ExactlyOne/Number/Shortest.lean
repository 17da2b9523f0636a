import ExactlyOne.Number.Binary64

/-!
The fewest decimal digits that read back as a given binary number.

The reals that round to `m · 2 ^ e` form an interval, its ends included exactly if `m` is even.
Among the decimals in that interval `Binary64.shortest` takes those with the fewest digits, and
of them the nearest to the value.
-/

namespace ExactlyOne

structure Decimal where
  digits : Nat
  exponent : Int
  deriving DecidableEq, Repr

namespace Binary64

/-- The interval of reals that round to a positive value, as numerators over one denominator. -/
structure Interval where
  low : Nat
  value : Nat
  high : Nat
  den : Nat
  closed : Bool
  deriving DecidableEq, Repr

/-- The lower neighbour of a power of two is nearer than the upper one. -/
def interval (x : Binary64) : Interval :=
  let low := if x.mantissa = twoTo (precision - 1) ∧ minExponent < x.exponent
    then 4 * x.mantissa - 1 else 4 * x.mantissa - 2
  let closed := x.mantissa % 2 == 0
  let scale := twoTo x.exponent.natAbs
  if 0 ≤ x.exponent
  then ⟨low * scale, 4 * x.mantissa * scale, (4 * x.mantissa + 2) * scale, 4, closed⟩
  else ⟨low, 4 * x.mantissa, 4 * x.mantissa + 2, 4 * scale, closed⟩

def Interval.holds (i : Interval) (d : Decimal) : Bool :=
  let point := if 0 ≤ d.exponent then d.digits * tenTo d.exponent.toNat * i.den
    else d.digits * i.den
  let unit := if 0 ≤ d.exponent then 1 else tenTo (-d.exponent).toNat
  if i.closed then i.low * unit ≤ point && point ≤ i.high * unit
  else i.low * unit < point && point < i.high * unit

/-- The multiple of `10 ^ exponent` nearest to the value, if one lies in the interval; of two
neighbours at the same distance the even one. -/
def Interval.onGrid (i : Interval) (exponent : Int) : Option Decimal :=
  let (num, den) := if 0 ≤ exponent then (i.value, i.den * tenTo exponent.toNat)
    else (i.value * tenTo (-exponent).toNat, i.den)
  let near := roundQuotient num den
  let below := num / den
  let far := if near = below then below + 1 else below
  let candidates := [near, far].map (Decimal.mk · exponent)
  candidates.find? fun d => d.digits != 0 && i.holds d

/-- The power of ten of the leading digit of `num / den`, for a positive fraction. -/
def leadingExponent (num den : Nat) : Int :=
  let estimate : Int := ((Nat.log2 num : Int) - Nat.log2 den) * 30103 / 100000
  let fits (k : Int) : Bool :=
    if 0 ≤ k then den * tenTo k.toNat ≤ num else den ≤ num * tenTo (-k).toNat
  if fits (estimate + 2) then estimate + 2
  else if fits (estimate + 1) then estimate + 1
  else if fits estimate then estimate
  else if fits (estimate - 1) then estimate - 1
  else estimate - 2

/-- The grids of 1, 2, … 17 digits, the coarsest first, one above the leading digit included. -/
def shortest (x : Binary64) : Decimal :=
  let i := x.interval
  let top := leadingExponent i.value i.den + 1
  ((List.range 18).findSome? fun n : Nat => i.onGrid (top - n)).getD ⟨0, 0⟩

end Binary64

end ExactlyOne
