import Shader.Logical.Types
import Shader.Module.Build

/-!
Declaring logical types in a module. Shared declarations are found again, so a logical type has one
id in a module.
-/

namespace Shader

def ScalarKind.decl (kind : ScalarKind) : TypeDecl :=
  if kind.isFloat then .float kind.bitWidth else .int kind.bitWidth kind.isSigned

def ScalarKind.declare (kind : ScalarKind) : Build ResultId := Build.declareType kind.decl

namespace LogicalType

def declareVector (t : LogicalType) : Build ResultId := do
  let scalar ← t.scalar.declare
  if t.width = .one then return scalar
  else Build.declareType (.vector scalar t.width.word)

/-- An array is declared after the vector it is made of and the constant for its length. -/
def declare (t : LogicalType) : Build ResultId := do
  let vector ← t.declareVector
  if t.isArray then
    let length ← Build.wordConstant t.elements
    Build.declareType (.array vector length)
  else return vector

end LogicalType

def PlaceType.declare (t : PlaceType) : Build ResultId := do
  let value ← t.value.declare
  Build.declareType (.pointer value t.storage)

end Shader
