import Shader.Emitter.Basic

/-!
The emitting operations as data, so that the life of an emitter is a list.
-/

namespace Shader

inductive Directive where
  | scalarType (kind : ScalarKind)
  | valueType (type : LogicalType)
  | placeType (type : PlaceType)
  | float (x : Binary32)
  | floats (xs : List Binary32)
  | reserve (count : Nat)
  | register (index : Nat)
  | merge (dst src : Value) (mask : LaneMask)
  | load (place : Place)
  | store (place : Place) (value : Value) (mask : LaneMask)
  | vertexBlock
  | position (block : ResultId)
deriving DecidableEq, Repr

inductive Reply where
  | silent
  | id (id : ResultId)
  | value (value : Value)
  | place (place : Place)
  | count (count : Nat)
deriving DecidableEq, Repr

/-- Carries out a directive. Only the registers of an emitter ever change. -/
def Emitter.perform (e : Emitter) : Directive → Except Misuse (Build (Reply × Emitter))
  | .scalarType kind => .ok do return (.id (← kind.declare), e)
  | .valueType type => .ok do return (.id (← type.declare), e)
  | .placeType type => .ok do return (.id (← type.declare), e)
  | .float x => .ok do return (.value (← Value.float x), e)
  | .floats xs => do
    let constant ← Value.floats xs
    return do return (.value (← constant), e)
  | .reserve count => .ok do
    let temps ← e.temps.reserve count
    return (.count temps.size, { e with temps := temps })
  | .register index => do
    let place ← e.temps.get index
    return do return (.place place, e)
  | .merge dst src mask => do
    let merged ← dst.merge src mask
    return do return (.value (← merged), e)
  | .load place => .ok do return (.value (← place.load), e)
  | .store place value mask => do
    let stored ← place.store value mask
    return do
      stored
      return (.silent, e)
  | .vertexBlock => .ok do return (.id (← VertexBlock.declare), e)
  | .position block => .ok do return (.place (← VertexBlock.position block), e)

end Shader
