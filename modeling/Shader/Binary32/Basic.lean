/-!
Numbers in the 32-bit binary floating-point format, as bit patterns.

Every finite number of the format is a whole multiple of 2^-149, so its magnitude is a natural
number in that unit, and no rounding takes place in this file.
-/

namespace Shader

structure Binary32 where
  bits : UInt32
deriving DecidableEq, Repr

namespace Binary32

def isNegative (x : Binary32) : Bool := x.bits >>> 31 = 1

def exponentField (x : Binary32) : Nat := ((x.bits >>> 23) &&& 0xff).toNat

def fractionField (x : Binary32) : Nat := (x.bits &&& 0x7fffff).toNat

def isNaN (x : Binary32) : Bool := x.exponentField = 255 ∧ x.fractionField ≠ 0

def isInfinite (x : Binary32) : Bool := x.exponentField = 255 ∧ x.fractionField = 0

def significand (x : Binary32) : Nat :=
  if x.exponentField = 0 then x.fractionField else 0x800000 + x.fractionField

/-- Distance to the next larger magnitude, in units of 2^-149. -/
def spacing (x : Binary32) : Nat := Nat.pow 2 (x.exponentField - 1)

/-- Magnitude of a finite number, in units of 2^-149. -/
def magnitude (x : Binary32) : Nat := x.significand * x.spacing

end Binary32
end Shader
