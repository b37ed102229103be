import Shader.Contents
import Shader.Instruction
import Shader.Table.Basic

/-!
The machine that runs function bodies, and what an instruction looks up in it.
-/

namespace Shader

structure Machine where
  memory : Table Contents := ∅
  values : Table Contents := ∅
  executed : Nat := 0

inductive Effect where
  | nothing
  | store (var : ResultId) (contents : Contents)
  | define (id : ResultId) (contents : Contents)

namespace Instruction

def requireRef (i : Instruction) (position : Nat) : Except ExecError ResultId :=
  match i.refAt? position with
  | some id => .ok id
  | none => .error (.missingOperand i.opcode position)

def requireResult (i : Instruction) : Except ExecError ResultId :=
  match i.result with
  | some id => .ok id
  | none => .error (.missingOperand i.opcode 0)

end Instruction

namespace Machine

def value (s : Machine) (id : ResultId) : Except ExecError Contents :=
  match s.values.get? id with
  | some contents => .ok contents
  | none => .error (.undefinedId id)

def contents (s : Machine) (id : ResultId) : Except ExecError Contents :=
  match s.memory.get? id with
  | some contents => .ok contents
  | none => .error (.undefinedId id)

/-- The cell that an id points to: the whole of a variable, or what an address says. -/
def cell (s : Machine) (id : ResultId) : Except ExecError (ResultId × List UInt32) :=
  if s.memory.contains id then .ok (id, [])
  else
    match s.values.get? id with
    | some (.address var path) => .ok (var, path)
    | _ => .error (.notAPointer id)

def index (s : Machine) (id : ResultId) : Except ExecError UInt32 := do
  match ← s.value id with
  | .scalar bits => return bits.toUInt32
  | _ => throw .notAComposite

def indices (s : Machine) (opcode : Opcode) : Nat → List Operand → Except ExecError (List UInt32)
  | _, [] => .ok []
  | position, operand :: rest => do
    match operand.ref? with
    | some id =>
      let index ← s.index id
      return index :: (← s.indices opcode (position + 1) rest)
    | none => throw (.missingOperand opcode position)

def parts (s : Machine) (id : ResultId) : Except ExecError (List Contents) := do
  match ← s.value id with
  | .composite parts => return parts
  | _ => throw .notAComposite

def select (opcode : Opcode) (lanes : List Contents) (selector : Operand) :
    Except ExecError Contents :=
  match selector.literal? with
  | none => .error (.missingOperand opcode 2)
  | some index =>
    match lanes[index.toNat]? with
    | some lane => .ok lane
    | none => .error (.indexOutOfBounds index lanes.length)

def apply (s : Machine) : Effect → Machine
  | .nothing => s
  | .store var contents => { s with memory := s.memory.insert var contents }
  | .define id contents => { s with values := s.values.insert id contents }

end Machine
end Shader
