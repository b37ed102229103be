import Shader.Module.Basic

/-!
The text of a module: one line for the bound, one for each item of the preamble, and one for each
instruction, section after section.
-/

namespace Shader

def EntryPoint.text (e : EntryPoint) (names : Naming) : String :=
  " ".intercalate
    ("OpEntryPoint" :: names.execution e.model :: e.id.text :: ("\"" ++ e.name ++ "\"") ::
      e.interfaces.map ResultId.text)

namespace Module

def preamble (m : Module) (names : Naming) : List String :=
  m.capabilities.map (fun c => "OpCapability " ++ names.capability c) ++
    m.memoryModel.toList.map
      (fun p => "OpMemoryModel " ++ names.addressing p.1 ++ " " ++ names.memory p.2) ++
    m.entryPoints.map fun e => e.text names

def instructions (m : Module) : List Instruction :=
  m.names ++ m.annotations ++ m.globals ++ m.code

def lines (m : Module) (names : Naming) : List String :=
  ("; Bound: " ++ m.bound.toNat.repr) ::
    (m.preamble names ++ m.instructions.map fun i => i.text names)

def text (m : Module) (names : Naming := .standard) : String :=
  String.join ((m.lines names).map fun line => line ++ "\n")

end Module
end Shader
