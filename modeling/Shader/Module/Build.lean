import Shader.Module.Basic

/-!
Building a module. Ids are given out in order, from one on. A type or a constant that was declared
before is found again instead of declared a second time.
-/

namespace Shader

abbrev Build := StateM Module

namespace Build

def freshId : Build ResultId := fun m => (m.freshId, m.advance)

def enableCapability (capability : Capability) : Build Unit :=
  modify fun m => m.addCapability capability

def setMemoryModel (addressing : AddressingModel) (memory : MemoryModel) : Build Unit :=
  modify fun m => { m with memoryModel := some (addressing, memory) }

def addEntryPoint (entry : EntryPoint) : Build Unit :=
  modify fun m => { m with entryPoints := m.entryPoints ++ [entry] }

def declareType (d : TypeDecl) : Build ResultId := fun m =>
  match assoc? d m.typeIds with
  | some id => (id, m)
  | none => (m.freshId, m.addType d)

def declareConstant (d : ConstDecl) : Build ResultId := fun m =>
  match assoc? d m.constIds with
  | some id => (id, m)
  | none => (m.freshId, m.addConstant d)

def wordConstant (value : UInt32) : Build ResultId := do
  let type ← declareType (.int 32 false)
  declareConstant (.word type value)

/-- A 32-bit float. Constants are told apart by their bit patterns. -/
def floatConstant (value : Binary32) : Build ResultId := do
  let type ← declareType (.float 32)
  declareConstant (.float type value)

def compositeConstant (type : ResultId) (parts : List ResultId) : Build ResultId :=
  declareConstant (.composite type parts)

def declareVariable (d : VarDecl) : Build ResultId := fun m => (m.freshId, m.addVariable d)

def emit (i : Instruction) : Build Unit := modify fun m => m.addCode i

def emitValue (opcode : Opcode) (type : ResultId) (operands : List Operand) : Build ResultId :=
  fun m => (m.freshId, m.addValue opcode type operands)

def beginFunction (resultType id functionType : ResultId) : Build Unit :=
  emit ⟨.opFunction, some id, some resultType, [.noControl, .ref functionType]⟩

def endFunction : Build Unit := emit ⟨.opFunctionEnd, none, none, []⟩

def label (id : ResultId) : Build Unit := emit ⟨.opLabel, some id, none, []⟩

def returnVoid : Build Unit := emit ⟨.opReturn, none, none, []⟩

def load (type pointer : ResultId) : Build ResultId := emitValue .opLoad type [.ref pointer]

def store (pointer object : ResultId) : Build Unit :=
  emit ⟨.opStore, none, none, [.ref pointer, .ref object]⟩

def compositeInsert (type object composite : ResultId) (indices : List UInt32) : Build ResultId :=
  emitValue .opCompositeInsert type (.ref object :: .ref composite :: indices.map .literal)

/-- A vector made of lanes of two others, the second numbered on from the first. -/
def vectorShuffle (type first second : ResultId) (selectors : List UInt32) : Build ResultId :=
  emitValue .opVectorShuffle type (.ref first :: .ref second :: selectors.map .literal)

/-- A pointer to a part of what the base points to. The indices are ids of constants. -/
def accessChain (type base : ResultId) (indices : List ResultId) : Build ResultId :=
  emitValue .opAccessChain type (.ref base :: indices.map .ref)

def annotate (i : Instruction) : Build Unit := modify fun m => m.addAnnotation i

def decorate (target : ResultId) (decoration : Decoration) (operands : List Operand) : Build Unit :=
  annotate ⟨.opDecorate, none, none, .ref target :: .decoration decoration :: operands⟩

def decorateMember (target : ResultId) (member : UInt32) (builtIn : BuiltIn) : Build Unit :=
  annotate ⟨.opMemberDecorate, none, none,
    [.ref target, .literal member, .decoration .builtIn, .builtIn builtIn]⟩

def attachName (i : Instruction) : Build Unit := modify fun m => m.addName i

def name (target : ResultId) (name : String) : Build Unit :=
  attachName ⟨.opName, none, none, [.ref target, .string name]⟩

def nameMember (target : ResultId) (member : UInt32) (name : String) : Build Unit :=
  attachName ⟨.opMemberName, none, none, [.ref target, .literal member, .string name]⟩

end Build
end Shader
