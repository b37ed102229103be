import Shader.Logical.Misuse

/-!
Selectors of a masked merge. The lanes of the source are numbered on from those of the destination.
-/

namespace Shader
namespace LaneMask

/-- Selectors for the given destination lanes. A source narrower than the destination is packed: its
lanes go to the selected ones in turn, and `next` is the first that is still free. -/
def selectorsFrom (mask : LaneMask) (dst src : UInt32) (next : UInt32) :
    List Nat → Except Misuse (List UInt32)
  | [] => .ok []
  | lane :: lanes =>
    if mask.test lane then
      if src < dst then
        if next < dst + src then do
          return next :: (← mask.selectorsFrom dst src (next + 1) lanes)
        else .error (.sourceExhausted mask)
      else do
        return (dst + UInt32.ofNat lane) :: (← mask.selectorsFrom dst src next lanes)
    else do
      return UInt32.ofNat lane :: (← mask.selectorsFrom dst src next lanes)

/-- For each lane of a destination, the lane that it takes when a source is merged into it under the
mask. -/
def selectors (mask : LaneMask) (dst src : UInt32) : Except Misuse (List UInt32) :=
  mask.selectorsFrom dst src dst (List.range dst.toNat)

end LaneMask
end Shader
