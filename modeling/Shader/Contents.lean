import Shader.Binary32.Basic
import Shader.ExecError

/-!
What variables and values hold while a module runs. A path leads from a composite through its parts
to one cell, which can be read and replaced.
-/

namespace Shader

inductive Contents where
  | scalar (bits : UInt64)
  | composite (parts : List Contents)
  | address (var : ResultId) (path : List UInt32)
deriving Repr

namespace Contents

def bits? : Contents → Option UInt64
  | scalar bits => some bits
  | _ => none

/-- The bit patterns of a vector; a scalar counts as a vector of one lane. -/
def lanes? : Contents → Option (List UInt64)
  | scalar bits => some [bits]
  | composite parts => parts.mapM bits?
  | address _ _ => none

def floatLanes? (c : Contents) : Option (List Binary32) :=
  c.lanes?.map fun lanes => lanes.map fun bits => ⟨bits.toUInt32⟩

def part (c : Contents) (index : UInt32) : Except ExecError Contents :=
  match c with
  | composite parts =>
    match parts[index.toNat]? with
    | some part => .ok part
    | none => .error (.indexOutOfBounds index parts.length)
  | _ => .error .notAComposite

def setPart (c : Contents) (index : UInt32) (x : Contents) : Contents :=
  match c with
  | composite parts => composite (parts.set index.toNat x)
  | other => other

def read : Contents → List UInt32 → Except ExecError Contents
  | c, [] => .ok c
  | c, index :: path => do
    let part ← c.part index
    part.read path

/-- Works on one part where it stands. Whatever the part has become stays, also if the work fails. -/
def onPart (index : UInt32) (work : EStateM ExecError Contents Unit) :
    EStateM ExecError Contents Unit := fun c =>
  match c.part index with
  | .error e => .error e c
  | .ok part =>
    match work part with
    | .ok _ changed => .ok () (c.setPart index changed)
    | .error e changed => .error e (c.setPart index changed)

def assign : List UInt32 → Contents → EStateM ExecError Contents Unit
  | [], x => set x
  | index :: path, x => onPart index (assign path x)

def write (c : Contents) (path : List UInt32) (x : Contents) : Except ExecError Contents :=
  match assign path x c with
  | .ok _ changed => .ok changed
  | .error e _ => .error e

end Contents
end Shader
