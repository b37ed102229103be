import Shader.Opcode

/-!
How enumerants are written. Texts are made with a naming of the vocabularies, and nothing else about
the vocabularies shows in them.
-/

namespace Shader

/-- The lines in front of the instructions begin with the names of opcodes of their own. -/
structure Naming where
  opcode : Opcode → String
  storageClass : StorageClass → String
  builtIn : BuiltIn → String
  decoration : Decoration → String
  capability : Capability → String
  addressing : AddressingModel → String
  memory : MemoryModel → String
  execution : ExecutionModel → String
  opCapability : opcode .opCapability = "Capability"
  opMemoryModel : opcode .opMemoryModel = "MemoryModel"
  opEntryPoint : opcode .opEntryPoint = "EntryPoint"

def Naming.standard : Naming where
  opcode := Opcode.name
  storageClass := StorageClass.name
  builtIn := BuiltIn.name
  decoration := Decoration.name
  capability := Capability.name
  addressing := AddressingModel.name
  memory := MemoryModel.name
  execution := ExecutionModel.name
  opCapability := rfl
  opMemoryModel := rfl
  opEntryPoint := rfl

def Opcode.text (op : Opcode) (names : Naming := .standard) : String := "Op" ++ names.opcode op

end Shader
