import Shader.Instruction

/-!
What a module declares: types, constants, variables and entry points, and the instruction that
declares each of them.
-/

namespace Shader

/-- A type, its parts given by the ids of other declarations. The length of an array is the id of a
constant. -/
inductive TypeDecl where
  | void
  | int (width : UInt32) (signed : Bool)
  | float (width : UInt32)
  | vector (component : ResultId) (count : UInt32)
  | array (element length : ResultId)
  | pointer (pointee : ResultId) (storage : StorageClass)
  | function (result : ResultId) (params : List ResultId)
  | struct (members : List ResultId)
deriving DecidableEq, Repr

namespace TypeDecl

/-- Equal types share one id, except structures: two structures with the same members may be named
and decorated differently. -/
def isShared : TypeDecl → Bool
  | struct _ => false
  | _ => true

def lanes? : TypeDecl → Option UInt32
  | int _ _ => some 1
  | float _ => some 1
  | vector _ count => some count
  | _ => none

def opcode : TypeDecl → Opcode
  | void => .opTypeVoid
  | int _ _ => .opTypeInt
  | float _ => .opTypeFloat
  | vector _ _ => .opTypeVector
  | array _ _ => .opTypeArray
  | pointer _ _ => .opTypePointer
  | function _ _ => .opTypeFunction
  | struct _ => .opTypeStruct

def operands : TypeDecl → List Operand
  | void => []
  | int width signed => [.literal width, .literal (if signed then 1 else 0)]
  | float width => [.literal width]
  | vector component count => [.ref component, .literal count]
  | array element length => [.ref element, .ref length]
  | pointer pointee storage => [.storageClass storage, .ref pointee]
  | function result params => .ref result :: params.map .ref
  | struct members => members.map .ref

def instruction (d : TypeDecl) (id : ResultId) : Instruction :=
  ⟨d.opcode, some id, none, d.operands⟩

end TypeDecl

inductive ConstDecl where
  | word (type : ResultId) (value : UInt32)
  | float (type : ResultId) (value : Binary32)
  | composite (type : ResultId) (parts : List ResultId)
deriving DecidableEq, Repr

namespace ConstDecl

def type : ConstDecl → ResultId
  | word type _ => type
  | float type _ => type
  | composite type _ => type

def bits? : ConstDecl → Option UInt64
  | word _ value => some value.toUInt64
  | float _ value => some value.bits.toUInt64
  | composite _ _ => none

def opcode : ConstDecl → Opcode
  | composite _ _ => .opConstantComposite
  | _ => .opConstant

def operands : ConstDecl → List Operand
  | word _ value => [.literal value]
  | float _ value => [.float value]
  | composite _ parts => parts.map .ref

def instruction (d : ConstDecl) (id : ResultId) : Instruction :=
  ⟨d.opcode, some id, some d.type, d.operands⟩

end ConstDecl

structure VarDecl where
  pointerType : ResultId
  storage : StorageClass
deriving DecidableEq, Repr

def VarDecl.instruction (d : VarDecl) (id : ResultId) : Instruction :=
  ⟨.opVariable, some id, some d.pointerType, [.storageClass d.storage]⟩

structure EntryPoint where
  id : ResultId
  model : ExecutionModel
  name : String
  interfaces : List ResultId
deriving DecidableEq, Repr

end Shader
