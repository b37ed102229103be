/-!
Shader stages, and what can be wrong with a program.
-/

namespace Shader

inductive Stage where
  | pixel | vertex | geometry | hull | domain | compute
deriving DecidableEq, Repr

namespace Stage

def code : Stage → UInt32
  | pixel => 0
  | vertex => 1
  | geometry => 2
  | hull => 3
  | domain => 4
  | compute => 5

def ofCode? (code : UInt32) : Option Stage :=
  [pixel, vertex, geometry, hull, domain, compute].find? fun stage => stage.code = code

def tag : Stage → String
  | pixel => "ps"
  | vertex => "vs"
  | geometry => "gs"
  | hull => "hs"
  | domain => "ds"
  | compute => "cs"

def name : Stage → String
  | pixel => "pixel shader"
  | vertex => "vertex shader"
  | geometry => "geometry shader"
  | hull => "hull shader"
  | domain => "domain shader"
  | compute => "compute shader"

end Stage

inductive Defect where
  | truncated (available : Nat)
  | unknownStage (code : UInt32)
  | lengthBelowHeader (length : UInt32)
  | lengthBeyondInput (length : UInt32) (available : Nat)
  | other (detail : String)
deriving DecidableEq, Repr

def Defect.message : Defect → String
  | truncated available => "program header needs 8 bytes, got " ++ available.repr
  | unknownStage code => "unknown program type " ++ code.toNat.repr
  | lengthBelowHeader length =>
    "program length " ++ length.toNat.repr ++ " is shorter than its header"
  | lengthBeyondInput length available =>
    "program length " ++ length.toNat.repr ++ " dwords exceeds " ++ available.repr ++
      " available bytes"
  | other detail => detail

inductive ProgramError where
  | unsupportedScalar (code : UInt32)
  | unsupportedStage (stage : Stage)
  | malformed (defect : Defect)
deriving DecidableEq, Repr

def ProgramError.message : ProgramError → String
  | unsupportedScalar code => "Invalid scalar type: " ++ code.toNat.repr
  | unsupportedStage stage => "Unsupported program type: " ++ stage.name
  | malformed defect => "Malformed program: " ++ defect.message

def Stage.decode (code : UInt32) : Except ProgramError Stage :=
  match ofCode? code with
  | some stage => .ok stage
  | none => .error (.malformed (.unknownStage code))

end Shader
