/-!
Write masks: which of the four lanes of a register are written.
-/

namespace Shader

structure LaneMask where
  x : Bool
  y : Bool
  z : Bool
  w : Bool
deriving DecidableEq, Repr

namespace LaneMask

/-- Bit `i` stands for lane `i`; bits above the fourth are dropped. -/
def ofBits (bits : UInt8) : LaneMask :=
  ⟨bits &&& 1 ≠ 0, bits &&& 2 ≠ 0, bits &&& 4 ≠ 0, bits &&& 8 ≠ 0⟩

def bits (m : LaneMask) : UInt8 :=
  (if m.x then 1 else 0) ||| (if m.y then 2 else 0) ||| (if m.z then 4 else 0) |||
    (if m.w then 8 else 0)

def firstLanes (count : Nat) : LaneMask := ⟨0 < count, 1 < count, 2 < count, 3 < count⟩

def union (a b : LaneMask) : LaneMask := ⟨a.x || b.x, a.y || b.y, a.z || b.z, a.w || b.w⟩

/-- Whether a lane is selected. There is no lane beyond the fourth. -/
def test (m : LaneMask) : Nat → Bool
  | 0 => m.x
  | 1 => m.y
  | 2 => m.z
  | 3 => m.w
  | _ => false

def lanes (m : LaneMask) : List Nat := [0, 1, 2, 3].filter m.test

def first? (m : LaneMask) : Option Nat := m.lanes.head?

def count (m : LaneMask) : Nat := m.lanes.length

def isEmpty (m : LaneMask) : Bool := m.lanes.isEmpty

def laneName : Nat → Char
  | 0 => 'x'
  | 1 => 'y'
  | 2 => 'z'
  | _ => 'w'

def text (m : LaneMask) : String := String.ofList (m.lanes.map laneName)

theorem ofBits_bits (m : LaneMask) : ofBits m.bits = m := by
  obtain ⟨x, y, z, w⟩ := m
  revert x y z w
  decide

end LaneMask
end Shader
