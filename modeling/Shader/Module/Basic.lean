import Shader.Declaration
import Shader.Table.Basic

/-!
Shader modules: sections of instructions in the order in which they were emitted, and tables that
answer questions about the ids they declare.
-/

namespace Shader

structure Module where
  issued : Nat := 0
  capabilities : List Capability := []
  memoryModel : Option (AddressingModel × MemoryModel) := none
  entryPoints : List EntryPoint := []
  names : List Instruction := []
  annotations : List Instruction := []
  globals : List Instruction := []
  code : List Instruction := []
  typeIds : List (TypeDecl × ResultId) := []
  constIds : List (ConstDecl × ResultId) := []
  types : Table TypeDecl := ∅
  constants : Table ConstDecl := ∅
  vars : Table VarDecl := ∅
  resultTypes : Table ResultId := ∅
deriving DecidableEq

namespace Module

def empty : Module := {}

/-- The number of the next id. Ids are counted from one, modulo 2^32. -/
def nextWord (m : Module) : UInt32 := UInt32.ofNat (m.issued + 1)

def bound (m : Module) : UInt32 := m.nextWord

def freshId (m : Module) : ResultId := ⟨m.nextWord⟩

def isEmpty (m : Module) : Bool :=
  m.nextWord = 1 ∧ m.capabilities = [] ∧ m.memoryModel = none ∧ m.entryPoints = [] ∧
    m.names = [] ∧ m.annotations = [] ∧ m.globals = [] ∧ m.code = []

def advance (m : Module) : Module := { m with issued := m.issued + 1 }

def addCapability (m : Module) (capability : Capability) : Module :=
  if capability ∈ m.capabilities then m
  else { m with capabilities := m.capabilities ++ [capability] }

def addType (m : Module) (d : TypeDecl) : Module :=
  { m.advance with
    globals := m.globals ++ [d.instruction m.freshId]
    typeIds := if d.isShared then m.typeIds ++ [(d, m.freshId)] else m.typeIds
    types := m.types.insert m.freshId d }

def addConstant (m : Module) (d : ConstDecl) : Module :=
  { m.advance with
    globals := m.globals ++ [d.instruction m.freshId]
    constIds := m.constIds ++ [(d, m.freshId)]
    constants := m.constants.insert m.freshId d }

def addVariable (m : Module) (d : VarDecl) : Module :=
  { m.advance with
    globals := m.globals ++ [d.instruction m.freshId]
    vars := m.vars.insert m.freshId d }

def addCode (m : Module) (i : Instruction) : Module := { m with code := m.code ++ [i] }

def addValue (m : Module) (opcode : Opcode) (type : ResultId) (operands : List Operand) : Module :=
  { m.advance with
    code := m.code ++ [⟨opcode, some m.freshId, some type, operands⟩]
    resultTypes := m.resultTypes.insert m.freshId type }

def addAnnotation (m : Module) (i : Instruction) : Module :=
  { m with annotations := m.annotations ++ [i] }

def addName (m : Module) (i : Instruction) : Module := { m with names := m.names ++ [i] }

end Module
end Shader
