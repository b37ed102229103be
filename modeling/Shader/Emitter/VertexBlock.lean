import Shader.Emitter.Types

/-!
The block of built-in outputs that a vertex program writes.
-/

namespace Shader
namespace VertexBlock

inductive Member where
  | position | pointSize | cullDistance | clipDistance
deriving DecidableEq, Repr

namespace Member

def all : List Member := [position, pointSize, cullDistance, clipDistance]

def index : Member → UInt32
  | position => 0
  | pointSize => 1
  | cullDistance => 2
  | clipDistance => 3

def type : Member → LogicalType
  | position => .float4
  | pointSize => .float
  | cullDistance | clipDistance => ⟨.float32, .one, 2⟩

def builtIn : Member → BuiltIn
  | position => .position
  | pointSize => .pointSize
  | cullDistance => .cullDistance
  | clipDistance => .clipDistance

def name : Member → String
  | position => "position"
  | pointSize => "point_size"
  | cullDistance => "cull_dist"
  | clipDistance => "clip_dist"

end Member

def declare : Build ResultId := do
  let members ← Member.all.mapM fun member => member.type.declare
  let block ← Build.declareType (.struct members)
  Member.all.forM fun member => Build.decorateMember block member.index member.builtIn
  Build.decorate block .block []
  Build.name block "per_vertex"
  Member.all.forM fun member => Build.nameMember block member.index member.name
  return block

def position (block : ResultId) : Build Place := do
  let type : PlaceType := ⟨Member.position.type, .output⟩
  let typeId ← type.declare
  let member ← Build.wordConstant Member.position.index
  let id ← Build.accessChain typeId block [member]
  return ⟨type, id⟩

end VertexBlock
end Shader
