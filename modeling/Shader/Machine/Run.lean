import Shader.Machine.Boot

/-!
Running a function. A call stops at the first instruction that fails, and the machine keeps what the
instructions before it did.
-/

namespace Shader

abbrev Exec := EStateM ExecError Machine

namespace Instruction

def endsCall (i : Instruction) : Bool := i.opcode = .opFunctionEnd ∨ i.opcode = .opReturn

def bodyOf? (entry : ResultId) : List Instruction → Option (List Instruction)
  | [] => none
  | i :: rest =>
    if i.opcode = .opFunction ∧ i.result = some entry then some rest else bodyOf? entry rest

end Instruction

namespace Exec

def ask {α : Type} (look : Machine → Except ExecError α) : Exec α := fun s =>
  match look s with
  | .ok a => .ok a s
  | .error e => .error e s

/-- Works on a variable where it stands. Whatever it has become stays, also if the work fails. -/
def onVariable (var : ResultId) (work : EStateM ExecError Contents Unit) : Exec Unit := fun s =>
  match s.contents var with
  | .error e => .error e s
  | .ok contents =>
    match work contents with
    | .ok _ changed => .ok () (s.apply (.store var changed))
    | .error e changed => .error e (s.apply (.store var changed))

def define (i : Instruction) (contents : Contents) : Exec Unit := do
  let id ← ask fun _ => i.requireResult
  modify fun s => s.apply (.define id contents)

def act (i : Instruction) : Exec Unit := do
  match i.opcode with
  | .opLabel => return
  | .opLoad =>
    let pointer ← ask fun _ => i.requireRef 0
    let (var, path) ← ask fun s => s.cell pointer
    let contents ← ask fun s => s.contents var
    let cell ← ask fun _ => contents.read path
    define i cell
  | .opStore =>
    let pointer ← ask fun _ => i.requireRef 0
    let (var, path) ← ask fun s => s.cell pointer
    let id ← ask fun _ => i.requireRef 1
    let object ← ask fun s => s.value id
    onVariable var (Contents.assign path object)
  | .opAccessChain =>
    let base ← ask fun _ => i.requireRef 0
    let (var, path) ← ask fun s => s.cell base
    let indices ← ask fun s => s.indices i.opcode 1 (i.operands.drop 1)
    define i (.address var (path ++ indices))
  | .opCompositeInsert =>
    let id ← ask fun _ => i.requireRef 0
    let object ← ask fun s => s.value id
    let id ← ask fun _ => i.requireRef 1
    let composite ← ask fun s => s.value id
    let path := (i.operands.drop 2).filterMap Operand.literal?
    let changed ← ask fun _ => composite.write path object
    define i changed
  | .opVectorShuffle =>
    let id ← ask fun _ => i.requireRef 0
    let first ← ask fun s => s.parts id
    let id ← ask fun _ => i.requireRef 1
    let second ← ask fun s => s.parts id
    let lanes ← ask fun _ =>
      (i.operands.drop 2).mapM (Machine.select i.opcode (first ++ second))
    define i (.composite lanes)
  | opcode => throw (.unsupportedInstruction opcode)

def step (i : Instruction) : Exec Unit := do
  modify fun s => { s with executed := s.executed + 1 }
  act i

def body (entry : ResultId) : List Instruction → Exec Unit
  | [] => throw (.missingFunctionEnd entry)
  | i :: rest =>
    if i.endsCall then pure ()
    else do
      step i
      body entry rest

def call (m : Module) (entry : ResultId) : Exec Unit :=
  match Instruction.bodyOf? entry m.code with
  | some code => body entry code
  | none => throw (.unknownFunction entry)

end Exec

def Module.run (m : Module) (entry : ResultId) : Except ExecError Machine := do
  match Exec.call m entry (← Machine.boot m) with
  | .ok _ s => return s
  | .error e _ => throw e

end Shader
