import Shader.Naming
import Shader.Logical.Misuse
import Shader.Program.Stage
import Shader.ResultId

/-!
Types as a shader program sees them: up to four lanes of one kind of scalar, or an array of those.
-/

namespace Shader

inductive ScalarKind where
  | uint32 | uint64 | int32 | int64 | float32 | float64
deriving DecidableEq, Repr

namespace ScalarKind

def all : List ScalarKind := [uint32, uint64, int32, int64, float32, float64]

def bitWidth : ScalarKind → UInt32
  | uint32 | int32 | float32 => 32
  | uint64 | int64 | float64 => 64

def isSigned : ScalarKind → Bool
  | int32 | int64 => true
  | _ => false

def isFloat : ScalarKind → Bool
  | float32 | float64 => true
  | _ => false

def name : ScalarKind → String
  | uint32 => "u32"
  | uint64 => "u64"
  | int32 => "i32"
  | int64 => "i64"
  | float32 => "f32"
  | float64 => "f64"

instance : Enumerant ScalarKind := ⟨all, name⟩

/-- Kinds are numbered in the order in which they are listed. -/
def decode (code : UInt32) : Except ProgramError ScalarKind :=
  match all[code.toNat]? with
  | some kind => .ok kind
  | none => .error (.unsupportedScalar code)

end ScalarKind

inductive Width where
  | one | two | three | four
deriving DecidableEq, Repr

namespace Width

def count : Width → Nat
  | one => 1
  | two => 2
  | three => 3
  | four => 4

def word (w : Width) : UInt32 := UInt32.ofNat w.count

def ofWord (count : UInt32) : Except Misuse Width :=
  match count.toNat with
  | 1 => .ok one
  | 2 => .ok two
  | 3 => .ok three
  | 4 => .ok four
  | _ => .error (.laneCount count)

end Width

structure LogicalType where
  scalar : ScalarKind
  width : Width
  /-- The length of an array; zero for a scalar or a vector. -/
  elements : UInt32 := 0
deriving DecidableEq, Repr

namespace LogicalType

def float : LogicalType := ⟨.float32, .one, 0⟩

def float4 : LogicalType := ⟨.float32, .four, 0⟩

def ofCounts (scalar : ScalarKind) (lanes elements : UInt32) : Except Misuse LogicalType := do
  return ⟨scalar, ← Width.ofWord lanes, elements⟩

def isArray (t : LogicalType) : Bool := t.elements ≠ 0

def isScalar (t : LogicalType) : Bool := t.width = .one ∧ t.elements = 0

def text (t : LogicalType) : String :=
  let vector :=
    if t.width = .one then t.scalar.name
    else "vec" ++ t.width.count.repr ++ "<" ++ t.scalar.name ++ ">"
  if t.isArray then "[" ++ vector ++ "; " ++ t.elements.toNat.repr ++ "]" else vector

end LogicalType

structure PlaceType where
  value : LogicalType
  storage : StorageClass
deriving DecidableEq, Repr

def PlaceType.text (t : PlaceType) (names : Naming := .standard) : String :=
  "ptr<" ++ names.storageClass t.storage ++ ", " ++ t.value.text ++ ">"

structure Value where
  type : LogicalType
  id : ResultId
deriving DecidableEq, Repr

structure Place where
  type : PlaceType
  id : ResultId
deriving DecidableEq, Repr

end Shader
