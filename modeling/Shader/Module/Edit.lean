import Shader.Module.Build

/-!
The building operations as data, so that a history of a module is a list.
-/

namespace Shader

inductive Edit where
  | freshId
  | enableCapability (capability : Capability)
  | setMemoryModel (addressing : AddressingModel) (memory : MemoryModel)
  | addEntryPoint (entry : EntryPoint)
  | declareType (d : TypeDecl)
  | wordConstant (value : UInt32)
  | floatConstant (value : Binary32)
  | compositeConstant (type : ResultId) (parts : List ResultId)
  | declareVariable (d : VarDecl)
  | beginFunction (resultType id functionType : ResultId)
  | endFunction
  | label (id : ResultId)
  | returnVoid
  | load (type pointer : ResultId)
  | store (pointer object : ResultId)
  | compositeInsert (type object composite : ResultId) (indices : List UInt32)
  | vectorShuffle (type first second : ResultId) (selectors : List UInt32)
  | accessChain (type base : ResultId) (indices : List ResultId)
  | decorate (target : ResultId) (decoration : Decoration) (operands : List Operand)
  | decorateMember (target : ResultId) (member : UInt32) (builtIn : BuiltIn)
  | name (target : ResultId) (name : String)
  | nameMember (target : ResultId) (member : UInt32) (name : String)
deriving DecidableEq, Repr

namespace Edit

def silently (action : Build Unit) : Build (Option ResultId) := do
  action
  return none

/-- Carries out an edit, and answers the id that it gives out or finds. -/
def perform : Edit → Build (Option ResultId)
  | freshId => some <$> Build.freshId
  | enableCapability capability => silently (Build.enableCapability capability)
  | setMemoryModel addressing memory => silently (Build.setMemoryModel addressing memory)
  | addEntryPoint entry => silently (Build.addEntryPoint entry)
  | declareType d => some <$> Build.declareType d
  | wordConstant value => some <$> Build.wordConstant value
  | floatConstant value => some <$> Build.floatConstant value
  | compositeConstant type parts => some <$> Build.compositeConstant type parts
  | declareVariable d => some <$> Build.declareVariable d
  | beginFunction resultType id functionType =>
    silently (Build.beginFunction resultType id functionType)
  | endFunction => silently Build.endFunction
  | label id => silently (Build.label id)
  | returnVoid => silently Build.returnVoid
  | load type pointer => some <$> Build.load type pointer
  | store pointer object => silently (Build.store pointer object)
  | compositeInsert type object composite indices =>
    some <$> Build.compositeInsert type object composite indices
  | vectorShuffle type first second selectors =>
    some <$> Build.vectorShuffle type first second selectors
  | accessChain type base indices => some <$> Build.accessChain type base indices
  | decorate target decoration operands => silently (Build.decorate target decoration operands)
  | decorateMember target member builtIn => silently (Build.decorateMember target member builtIn)
  | name target text => silently (Build.name target text)
  | nameMember target member text => silently (Build.nameMember target member text)

end Edit

namespace Module

def edit (m : Module) (e : Edit) : Module := (e.perform m).2

def replay (m : Module) (history : List Edit) : Module := history.foldl edit m

def Reachable (m : Module) : Prop := ∃ history, m = empty.replay history

theorem replay_append (m : Module) (first second : List Edit) :
    m.replay (first ++ second) = (m.replay first).replay second := List.foldl_append

end Module
end Shader
