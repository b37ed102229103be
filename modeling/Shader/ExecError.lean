import Shader.Naming
import Shader.ResultId

/-!
Why a module cannot be run.
-/

namespace Shader

inductive ExecError where
  | unknownFunction (id : ResultId)
  | missingFunctionEnd (id : ResultId)
  | undefinedId (id : ResultId)
  | notAPointer (id : ResultId)
  | notAComposite
  | indexOutOfBounds (index : UInt32) (size : Nat)
  | missingOperand (opcode : Opcode) (position : Nat)
  | unsupportedInstruction (opcode : Opcode)
  | unsupportedType (id : ResultId)
deriving DecidableEq, Repr

def ExecError.message (e : ExecError) (names : Naming := .standard) : String :=
  match e with
  | unknownFunction id => "No function with id " ++ id.text
  | missingFunctionEnd id => "Function " ++ id.text ++ " is not terminated by OpFunctionEnd"
  | undefinedId id => "Use of undefined id " ++ id.text
  | notAPointer id => "Id " ++ id.text ++ " is not a pointer"
  | notAComposite => "Cannot index into a scalar value"
  | indexOutOfBounds index size =>
    "Index " ++ index.toNat.repr ++ " out of bounds for composite of " ++ size.repr ++ " elements"
  | missingOperand opcode position => opcode.text names ++ " is missing operand " ++ position.repr
  | unsupportedInstruction opcode => "Unsupported instruction " ++ opcode.text names
  | unsupportedType id => "Cannot materialise a value of type " ++ id.text

end Shader
