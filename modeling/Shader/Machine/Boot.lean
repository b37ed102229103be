import Shader.Machine.Basic
import Shader.Module.Query

/-!
The machine before the first instruction: constants have their values and variables are zero.
-/

namespace Shader
namespace Module

def zeroWithin (m : Module) : Nat → ResultId → Except ExecError Contents
  | 0, type => .error (.unsupportedType type)
  | depth + 1, type =>
    match m.typeDecl? type with
    | some (.int _ _) => .ok (.scalar 0)
    | some (.float _) => .ok (.scalar 0)
    | some (.vector component count) => do
      let lane ← m.zeroWithin depth component
      return .composite (List.replicate count.toNat lane)
    | some (.array element length) => do
      match (m.constDecl? length).bind ConstDecl.bits? with
      | some size =>
        let zero ← m.zeroWithin depth element
        return .composite (List.replicate size.toNat zero)
      | none => throw (.unsupportedType type)
    | some (.struct members) => do
      return .composite (← members.mapM (m.zeroWithin depth))
    | _ => .error (.unsupportedType type)

/-- The zero of a type. Declared ids are below the bound, so a type that does not contain itself is
nested less deeply than that. -/
def zero (m : Module) (type : ResultId) : Except ExecError Contents :=
  m.zeroWithin m.bound.toNat type

end Module

namespace Machine

def constant (s : Machine) : ConstDecl → Except ExecError Contents
  | .word _ value => .ok (.scalar value.toUInt64)
  | .float _ value => .ok (.scalar value.bits.toUInt64)
  | .composite _ parts => do return .composite (← parts.mapM s.value)

def declare (m : Module) (s : Machine) (i : Instruction) : Except ExecError Machine := do
  match i.opcode, i.result with
  | .opConstant, some id | .opConstantComposite, some id =>
    match m.constDecl? id with
    | some d => return s.apply (.define id (← s.constant d))
    | none => throw (.undefinedId id)
  | .opVariable, some id =>
    match (m.varDecl? id).bind fun d => m.typeDecl? d.pointerType with
    | some (.pointer pointee _) => return s.apply (.store id (← m.zero pointee))
    | _ => throw (.notAPointer id)
  | _, _ => return s

def boot (m : Module) : Except ExecError Machine := m.globals.foldlM (declare m) {}

end Machine
end Shader
