import Shader.Binary32.Basic

/-!
Decimal text of 32-bit numbers: the fewest digits that read back as the same number, and of those
the nearest to it.

A number reads back from every decimal inside its rounding interval. On the grid of multiples of a
power of ten, if any point lies in that interval then so does one of the two neighbours of the
number, so the search below looks at those two only, from the coarsest grid to the finest.
-/

namespace Shader

structure Decimal where
  digits : Nat
  exponent : Int
deriving DecidableEq, Repr

/-- The decimals that read back as `value`. All three numbers share one unit. -/
structure RoundingInterval where
  lower : Nat
  value : Nat
  upper : Nat
  closed : Bool
deriving DecidableEq, Repr

structure Grid where
  num : Nat
  den : Nat
deriving DecidableEq, Repr

namespace RoundingInterval

def holds (i : RoundingInterval) (g : Grid) (k : Nat) : Bool :=
  if i.closed then i.lower * g.den ≤ k * g.num ∧ k * g.num ≤ i.upper * g.den
  else i.lower * g.den < k * g.num ∧ k * g.num < i.upper * g.den

/-- The grid point of the interval nearest to its value, the upper one of two at equal distance. -/
def nearest? (i : RoundingInterval) (g : Grid) : Option Nat :=
  let scaled := i.value * g.den
  let k := scaled / g.num
  let nearer := if 2 * (scaled % g.num) < g.num then k else k + 1
  let farther := if nearer = k then k + 1 else k
  if i.holds g nearer then some nearer
  else if i.holds g farther then some farther
  else none

end RoundingInterval

namespace Binary32

/-- Numbers that round to `x`, in units of 2^-151. Below a power of two the spacing is halved, and
the ends round to `x` when its significand is even. -/
def roundingInterval (x : Binary32) : RoundingInterval where
  lower := 4 * x.magnitude -
    (if x.fractionField = 0 ∧ 1 < x.exponentField then x.spacing else 2 * x.spacing)
  value := 4 * x.magnitude
  upper := 4 * x.magnitude + 2 * x.spacing
  closed := x.significand % 2 = 0

def decimalGrid (exponent : Int) : Grid :=
  if 0 ≤ exponent then ⟨Nat.pow 10 exponent.toNat * Nat.pow 2 151, 1⟩
  else ⟨Nat.pow 2 151, Nat.pow 10 (-exponent).toNat⟩

def decimalAt? (x : Binary32) (exponent : Int) : Option Decimal :=
  (x.roundingInterval.nearest? (decimalGrid exponent)).map fun k => ⟨k, exponent⟩

/-- The exact value: 2^-149 is 5^149 times 10^-149. -/
def exactDecimal (x : Binary32) : Decimal := ⟨x.magnitude * Nat.pow 5 149, -149⟩

def decimalExponents : List Int := (List.range 84).map fun n : Nat => 38 - (n : Int)

/-- The fewest digits that read back as a finite number other than zero. -/
def shortestDecimal (x : Binary32) : Decimal :=
  (decimalExponents.findSome? x.decimalAt?).getD x.exactDecimal

end Binary32

namespace Decimal

def leadingPlace (d : Decimal) : Int := d.exponent + (d.digits.repr.length - 1 : Nat)

def positional (d : Decimal) : String :=
  let digits := d.digits.repr.toList
  if 0 ≤ d.exponent then
    String.ofList (digits ++ List.replicate d.exponent.toNat '0') ++ ".0"
  else if 0 ≤ d.leadingPlace then
    let whole := d.leadingPlace.toNat + 1
    String.ofList (digits.take whole) ++ "." ++ String.ofList (digits.drop whole)
  else
    "0." ++ String.ofList (List.replicate (-d.leadingPlace - 1).toNat '0' ++ digits)

def scientific (d : Decimal) : String :=
  let digits := d.digits.repr.toList
  let fraction := digits.drop 1
  String.ofList (digits.take 1) ++
    (if fraction.isEmpty then "" else "." ++ String.ofList fraction) ++
    "e" ++ d.leadingPlace.repr

/-- Positional when the leading digit stands from 10^-4 to 10^15. -/
def text (d : Decimal) : String :=
  if -4 ≤ d.leadingPlace ∧ d.leadingPlace < 16 then d.positional else d.scientific

end Decimal

namespace Binary32

/-- A NaN has no sign, every other number keeps its own. -/
def text (x : Binary32) : String :=
  if x.isNaN then "NaN"
  else
    let sign := if x.isNegative then "-" else ""
    if x.isInfinite then sign ++ "inf"
    else if x.magnitude = 0 then sign ++ "0.0"
    else sign ++ x.shortestDecimal.text

end Binary32
end Shader
