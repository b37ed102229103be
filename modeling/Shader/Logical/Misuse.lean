import Shader.Logical.Mask

/-!
Mistakes of whoever drives an emitter. They are decided before anything is emitted.
-/

namespace Shader

inductive Misuse where
  | laneCount (count : UInt32)
  | undeclaredRegister (index declared : Nat)
  | sourceExhausted (mask : LaneMask)
deriving DecidableEq, Repr

def Misuse.message : Misuse → String
  | laneCount count => "component count " ++ count.toNat.repr ++ " out of range 1..=4"
  | undeclaredRegister index declared =>
    "temporary register r" ++ index.repr ++ " used but only " ++ declared.repr ++ " declared"
  | sourceExhausted mask => "mask " ++ mask.text ++ " selects more lanes than the source has"

end Shader
