import Shader.Binary32.Decimal
import Shader.Naming
import Shader.ResultId

/-!
Instructions and their one-line text.
-/

namespace Shader

inductive Operand where
  | ref (id : ResultId)
  | literal (word : UInt32)
  | float (value : Binary32)
  | string (value : String)
  | storageClass (value : StorageClass)
  | builtIn (value : BuiltIn)
  | decoration (value : Decoration)
  | noControl
deriving DecidableEq, Repr

namespace Operand

def ref? : Operand → Option ResultId
  | ref id => some id
  | _ => none

/-- The word of an integer literal, or the bit pattern of a float literal. -/
def literal? : Operand → Option UInt32
  | literal word => some word
  | float value => some value.bits
  | _ => none

/-- A string stands between quotes as it is, without escapes. -/
def text (o : Operand) (names : Naming := .standard) : String :=
  match o with
  | ref id => id.text
  | literal word => word.toNat.repr
  | float value => value.text
  | string value => "\"" ++ value ++ "\""
  | storageClass value => names.storageClass value
  | builtIn value => names.builtIn value
  | decoration value => names.decoration value
  | noControl => "None"

end Operand

structure Instruction where
  opcode : Opcode
  result : Option ResultId := none
  resultType : Option ResultId := none
  operands : List Operand := []
deriving DecidableEq, Repr

namespace Instruction

def refAt? (i : Instruction) (n : Nat) : Option ResultId := i.operands[n]?.bind Operand.ref?

def literalAt? (i : Instruction) (n : Nat) : Option UInt32 := i.operands[n]?.bind Operand.literal?

def words (i : Instruction) (names : Naming) : List String :=
  i.result.toList.flatMap (fun id => [id.text, "="]) ++
    i.opcode.text names ::
      (i.resultType.toList.map ResultId.text ++ i.operands.map fun o => o.text names)

def text (i : Instruction) (names : Naming := .standard) : String := " ".intercalate (i.words names)

end Instruction
end Shader
