import Shader.Emitter.Registers
import Shader.Emitter.Values
import Shader.Emitter.VertexBlock
import Shader.Program.Header

/-!
Emitters: what is kept while the code of one program is being emitted into a module.
-/

namespace Shader

structure Emitter where
  entry : ResultId
  temps : Registers := {}
deriving DecidableEq, Repr

def Emitter.start : Build Emitter := do
  Build.enableCapability .shader
  Build.setMemoryModel .logical .glsl450
  let entry ← Build.freshId
  return { entry := entry }

structure VertexEmitter extends Emitter where
  output : ResultId
deriving DecidableEq, Repr

namespace VertexEmitter

def stage : Stage := .vertex

def start : Build VertexEmitter := do
  let emitter ← Emitter.start
  let block ← VertexBlock.declare
  let pointer ← Build.declareType (.pointer block .output)
  let output ← Build.declareVariable ⟨pointer, .output⟩
  Build.name output "vs_per_vertex"
  let void ← Build.declareType .void
  let function ← Build.declareType (.function void [])
  Build.beginFunction void emitter.entry function
  let label ← Build.freshId
  Build.label label
  return ⟨emitter, output⟩

def finish (e : VertexEmitter) : Build ResultId := do
  Build.returnVoid
  Build.endFunction
  Build.addEntryPoint ⟨e.entry, .vertex, "main", [e.output]⟩
  Build.name e.entry "main"
  return e.entry

def forStage : Stage → Except ProgramError (Build VertexEmitter)
  | .vertex => .ok start
  | other => .error (.unsupportedStage other)

end VertexEmitter
end Shader
