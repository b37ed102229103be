import Shader.Emitter.Types
import Shader.Logical.Selectors

/-!
Values and masked writes. How a source is merged into a destination depends on their widths and the
mask alone, so it is planned before anything is emitted. Misuse ends a run: there is no module after
it, and what had been emitted by then is not described.
-/

namespace Shader

inductive Merge where
  | keep
  | replace
  | insert (lane : Nat)
  | shuffle (selectors : List UInt32)
deriving DecidableEq, Repr

namespace Merge

/-- A scalar destination takes the source if its only lane is selected. A scalar source goes to the
lowest selected lane. Two vectors are shuffled together. -/
def plan (dst src : Width) (mask : LaneMask) : Except Misuse Merge :=
  if dst = .one then
    .ok (if mask.test 0 then replace else keep)
  else if src = .one then
    match mask.first? with
    | some lane => .ok (insert lane)
    | none => .ok keep
  else do
    return shuffle (← mask.selectors dst.word src.word)

def emit (dst src : Value) : Merge → Build Value
  | keep => return dst
  | replace => return ⟨dst.type, src.id⟩
  | insert lane => do
    let type ← dst.type.declare
    let id ← Build.compositeInsert type src.id dst.id [UInt32.ofNat lane]
    return ⟨dst.type, id⟩
  | shuffle selectors => do
    let type ← dst.type.declare
    let id ← Build.vectorShuffle type dst.id src.id selectors
    return ⟨dst.type, id⟩

end Merge

namespace Value

def float (x : Binary32) : Build Value := do
  let id ← Build.floatConstant x
  return ⟨.float, id⟩

/-- A constant with a lane for each number. One number alone is a scalar. -/
def floats : List Binary32 → Except Misuse (Build Value)
  | [x] => .ok (float x)
  | xs => do
    let type ← LogicalType.ofCounts .float32 (UInt32.ofNat xs.length) 0
    return do
      let typeId ← type.declare
      let lanes ← xs.mapM Build.floatConstant
      let id ← Build.compositeConstant typeId lanes
      return ⟨type, id⟩

def merge (dst src : Value) (mask : LaneMask) : Except Misuse (Build Value) := do
  let plan ← Merge.plan dst.type.width src.type.width mask
  return plan.emit dst src

end Value

namespace Place

def load (p : Place) : Build Value := do
  let type ← p.type.value.declare
  let id ← Build.load type p.id
  return ⟨p.type.value, id⟩

/-- Stores a value to the selected lanes. A value that fills every lane is stored as it is, and any
other is merged into what the place holds. -/
def store (p : Place) (value : Value) (mask : LaneMask) : Except Misuse (Build Unit) :=
  let width := p.type.value.width
  if value.type.width = width ∧ mask = .firstLanes width.count then
    .ok (Build.store p.id value.id)
  else do
    let plan ← Merge.plan width value.type.width mask
    return do
      let current ← p.load
      let merged ← plan.emit current value
      Build.store p.id merged.id

end Place
end Shader
