import Shader.Module.Basic

/-!
Questions about a module. Where a target was named or decorated more than once, the first answer
stands.
-/

namespace Shader

namespace Instruction

def nameOf? (target : ResultId) : Instruction → Option String
  | ⟨.opName, _, _, [.ref id, .string name]⟩ => if id = target then some name else none
  | _ => none

def memberNameOf? (target : ResultId) (member : UInt32) : Instruction → Option String
  | ⟨.opMemberName, _, _, [.ref id, .literal index, .string name]⟩ =>
    if id = target ∧ index = member then some name else none
  | _ => none

def decorates (target : ResultId) (decoration : Decoration) : Instruction → Bool
  | ⟨.opDecorate, _, _, .ref id :: .decoration d :: _⟩ => id = target ∧ d = decoration
  | _ => false

def memberBuiltInOf? (target : ResultId) (member : UInt32) : Instruction → Option BuiltIn
  | ⟨.opMemberDecorate, _, _, [.ref id, .literal index, .decoration .builtIn, .builtIn b]⟩ =>
    if id = target ∧ index = member then some b else none
  | _ => none

end Instruction

namespace Module

def typeDecl? (m : Module) (id : ResultId) : Option TypeDecl := m.types.get? id

def constDecl? (m : Module) (id : ResultId) : Option ConstDecl := m.constants.get? id

def varDecl? (m : Module) (id : ResultId) : Option VarDecl := m.vars.get? id

def resultType? (m : Module) (id : ResultId) : Option ResultId := m.resultTypes.get? id

def countOpcode (m : Module) (opcode : Opcode) : Nat := m.code.countP fun i => i.opcode = opcode

def name? (m : Module) (target : ResultId) : Option String :=
  m.names.findSome? (Instruction.nameOf? target)

def memberName? (m : Module) (target : ResultId) (member : UInt32) : Option String :=
  m.names.findSome? (Instruction.memberNameOf? target member)

def isDecorated (m : Module) (target : ResultId) (decoration : Decoration) : Bool :=
  m.annotations.any (Instruction.decorates target decoration)

def memberBuiltIn? (m : Module) (target : ResultId) (member : UInt32) : Option BuiltIn :=
  m.annotations.findSome? (Instruction.memberBuiltInOf? target member)

end Module
end Shader
