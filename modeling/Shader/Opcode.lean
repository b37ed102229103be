import Shader.Enumerant

/-!
Instruction names.
-/

namespace Shader

inductive Opcode where
  | opNop | opName | opMemberName | opMemoryModel | opEntryPoint | opCapability | opTypeVoid
  | opTypeInt | opTypeFloat | opTypeVector | opTypeArray | opTypeStruct | opTypePointer
  | opTypeFunction | opConstant | opConstantComposite | opFunction | opFunctionEnd | opVariable
  | opLoad | opStore | opAccessChain | opDecorate | opMemberDecorate | opVectorShuffle
  | opCompositeInsert | opLabel | opReturn
  | other (code : UInt32)
deriving DecidableEq, Repr

namespace Opcode

def name : Opcode → String
  | .opNop => "Nop"
  | .opName => "Name"
  | .opMemberName => "MemberName"
  | .opMemoryModel => "MemoryModel"
  | .opEntryPoint => "EntryPoint"
  | .opCapability => "Capability"
  | .opTypeVoid => "TypeVoid"
  | .opTypeInt => "TypeInt"
  | .opTypeFloat => "TypeFloat"
  | .opTypeVector => "TypeVector"
  | .opTypeArray => "TypeArray"
  | .opTypeStruct => "TypeStruct"
  | .opTypePointer => "TypePointer"
  | .opTypeFunction => "TypeFunction"
  | .opConstant => "Constant"
  | .opConstantComposite => "ConstantComposite"
  | .opFunction => "Function"
  | .opFunctionEnd => "FunctionEnd"
  | .opVariable => "Variable"
  | .opLoad => "Load"
  | .opStore => "Store"
  | .opAccessChain => "AccessChain"
  | .opDecorate => "Decorate"
  | .opMemberDecorate => "MemberDecorate"
  | .opVectorShuffle => "VectorShuffle"
  | .opCompositeInsert => "CompositeInsert"
  | .opLabel => "Label"
  | .opReturn => "Return"
  | .other code => code.toNat.repr

def all : List Opcode := [
  .opNop, .opName, .opMemberName, .opMemoryModel, .opEntryPoint, .opCapability, .opTypeVoid,
  .opTypeInt, .opTypeFloat, .opTypeVector, .opTypeArray, .opTypeStruct, .opTypePointer,
  .opTypeFunction, .opConstant, .opConstantComposite, .opFunction, .opFunctionEnd, .opVariable,
  .opLoad, .opStore, .opAccessChain, .opDecorate, .opMemberDecorate, .opVectorShuffle,
  .opCompositeInsert, .opLabel, .opReturn]

instance : Vocabulary Opcode where
  all := all
  name := name
  other := .other
  listed_or_other a := by cases a <;> simp [all]
  name_other _ := rfl
  isName_of_listed := by decide +kernel
  names_nodup := by decide +kernel

end Opcode

end Shader
