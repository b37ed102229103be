/-!
The vocabularies of a shader module. The enumerants that are listed have a standard name; any other
is known by its number.
-/

namespace Shader

class Enumerant (α : Type) where
  all : List α
  name : α → String

def Enumerant.ofName? {α : Type} [Enumerant α] (name : String) : Option α :=
  (Enumerant.all : List α).find? fun a => Enumerant.name a = name

def isName (text : String) : Bool :=
  text.toList.head?.any Char.isAlpha && text.toList.all Char.isAlphanum

/-- A vocabulary with standard names for some enumerants and numbers for all others. -/
class Vocabulary (α : Type) extends Enumerant α where
  other : UInt32 → α
  listed_or_other : ∀ a, a ∈ all ∨ ∃ code, a = other code
  name_other : ∀ code, name (other code) = code.toNat.repr
  isName_of_listed : ∀ a ∈ all, isName (name a) = true
  names_nodup : (all.map name).Nodup

inductive StorageClass where
  | uniformConstant | input | uniform | output | workgroup | crossWorkgroup | privateStorage
  | function | generic | pushConstant | atomicCounter | image | storageBuffer
  | other (code : UInt32)
deriving DecidableEq, Repr

namespace StorageClass

def name : StorageClass → String
  | .uniformConstant => "UniformConstant"
  | .input => "Input"
  | .uniform => "Uniform"
  | .output => "Output"
  | .workgroup => "Workgroup"
  | .crossWorkgroup => "CrossWorkgroup"
  | .privateStorage => "Private"
  | .function => "Function"
  | .generic => "Generic"
  | .pushConstant => "PushConstant"
  | .atomicCounter => "AtomicCounter"
  | .image => "Image"
  | .storageBuffer => "StorageBuffer"
  | .other code => code.toNat.repr

def all : List StorageClass := [
  .uniformConstant, .input, .uniform, .output, .workgroup, .crossWorkgroup, .privateStorage,
  .function, .generic, .pushConstant, .atomicCounter, .image, .storageBuffer]

instance : Vocabulary StorageClass where
  all := all
  name := name
  other := .other
  listed_or_other a := by cases a <;> simp [all]
  name_other _ := rfl
  isName_of_listed := by decide +kernel
  names_nodup := by decide +kernel

end StorageClass

inductive BuiltIn where
  | position | pointSize | clipDistance | cullDistance | vertexId | instanceId | primitiveId
  | invocationId | layer | viewportIndex | tessLevelOuter | tessLevelInner | tessCoord
  | patchVertices | fragCoord | pointCoord | frontFacing | sampleId | samplePosition | sampleMask
  | fragDepth | helperInvocation | numWorkgroups | workgroupSize | workgroupId
  | localInvocationId | globalInvocationId | localInvocationIndex | vertexIndex | instanceIndex
  | other (code : UInt32)
deriving DecidableEq, Repr

namespace BuiltIn

def name : BuiltIn → String
  | .position => "Position"
  | .pointSize => "PointSize"
  | .clipDistance => "ClipDistance"
  | .cullDistance => "CullDistance"
  | .vertexId => "VertexId"
  | .instanceId => "InstanceId"
  | .primitiveId => "PrimitiveId"
  | .invocationId => "InvocationId"
  | .layer => "Layer"
  | .viewportIndex => "ViewportIndex"
  | .tessLevelOuter => "TessLevelOuter"
  | .tessLevelInner => "TessLevelInner"
  | .tessCoord => "TessCoord"
  | .patchVertices => "PatchVertices"
  | .fragCoord => "FragCoord"
  | .pointCoord => "PointCoord"
  | .frontFacing => "FrontFacing"
  | .sampleId => "SampleId"
  | .samplePosition => "SamplePosition"
  | .sampleMask => "SampleMask"
  | .fragDepth => "FragDepth"
  | .helperInvocation => "HelperInvocation"
  | .numWorkgroups => "NumWorkgroups"
  | .workgroupSize => "WorkgroupSize"
  | .workgroupId => "WorkgroupId"
  | .localInvocationId => "LocalInvocationId"
  | .globalInvocationId => "GlobalInvocationId"
  | .localInvocationIndex => "LocalInvocationIndex"
  | .vertexIndex => "VertexIndex"
  | .instanceIndex => "InstanceIndex"
  | .other code => code.toNat.repr

def all : List BuiltIn := [
  .position, .pointSize, .clipDistance, .cullDistance, .vertexId, .instanceId, .primitiveId,
  .invocationId, .layer, .viewportIndex, .tessLevelOuter, .tessLevelInner, .tessCoord,
  .patchVertices, .fragCoord, .pointCoord, .frontFacing, .sampleId, .samplePosition, .sampleMask,
  .fragDepth, .helperInvocation, .numWorkgroups, .workgroupSize, .workgroupId,
  .localInvocationId, .globalInvocationId, .localInvocationIndex, .vertexIndex, .instanceIndex]

instance : Vocabulary BuiltIn where
  all := all
  name := name
  other := .other
  listed_or_other a := by cases a <;> simp [all]
  name_other _ := rfl
  isName_of_listed := by decide +kernel
  names_nodup := by decide +kernel

end BuiltIn

inductive Decoration where
  | relaxedPrecision | specId | block | bufferBlock | rowMajor | colMajor | arrayStride
  | matrixStride | glslShared | glslPacked | cPacked | builtIn | noPerspective | flat | patch
  | centroid | sample | invariant | restrict | aliased | volatile | constant | coherent
  | nonWritable | nonReadable | uniform | location | component | index | binding | descriptorSet
  | offset
  | other (code : UInt32)
deriving DecidableEq, Repr

namespace Decoration

def name : Decoration → String
  | .relaxedPrecision => "RelaxedPrecision"
  | .specId => "SpecId"
  | .block => "Block"
  | .bufferBlock => "BufferBlock"
  | .rowMajor => "RowMajor"
  | .colMajor => "ColMajor"
  | .arrayStride => "ArrayStride"
  | .matrixStride => "MatrixStride"
  | .glslShared => "GLSLShared"
  | .glslPacked => "GLSLPacked"
  | .cPacked => "CPacked"
  | .builtIn => "BuiltIn"
  | .noPerspective => "NoPerspective"
  | .flat => "Flat"
  | .patch => "Patch"
  | .centroid => "Centroid"
  | .sample => "Sample"
  | .invariant => "Invariant"
  | .restrict => "Restrict"
  | .aliased => "Aliased"
  | .volatile => "Volatile"
  | .constant => "Constant"
  | .coherent => "Coherent"
  | .nonWritable => "NonWritable"
  | .nonReadable => "NonReadable"
  | .uniform => "Uniform"
  | .location => "Location"
  | .component => "Component"
  | .index => "Index"
  | .binding => "Binding"
  | .descriptorSet => "DescriptorSet"
  | .offset => "Offset"
  | .other code => code.toNat.repr

def all : List Decoration := [
  .relaxedPrecision, .specId, .block, .bufferBlock, .rowMajor, .colMajor, .arrayStride,
  .matrixStride, .glslShared, .glslPacked, .cPacked, .builtIn, .noPerspective, .flat, .patch,
  .centroid, .sample, .invariant, .restrict, .aliased, .volatile, .constant, .coherent,
  .nonWritable, .nonReadable, .uniform, .location, .component, .index, .binding, .descriptorSet,
  .offset]

instance : Vocabulary Decoration where
  all := all
  name := name
  other := .other
  listed_or_other a := by cases a <;> simp [all]
  name_other _ := rfl
  isName_of_listed := by decide +kernel
  names_nodup := by decide +kernel

end Decoration

inductive Capability where
  | matrix | shader | geometry | tessellation | addresses | linkage | kernel | vector16
  | float16Buffer | float16 | float64 | int64 | int16 | int8 | clipDistance | cullDistance
  | other (code : UInt32)
deriving DecidableEq, Repr

namespace Capability

def name : Capability → String
  | .matrix => "Matrix"
  | .shader => "Shader"
  | .geometry => "Geometry"
  | .tessellation => "Tessellation"
  | .addresses => "Addresses"
  | .linkage => "Linkage"
  | .kernel => "Kernel"
  | .vector16 => "Vector16"
  | .float16Buffer => "Float16Buffer"
  | .float16 => "Float16"
  | .float64 => "Float64"
  | .int64 => "Int64"
  | .int16 => "Int16"
  | .int8 => "Int8"
  | .clipDistance => "ClipDistance"
  | .cullDistance => "CullDistance"
  | .other code => code.toNat.repr

def all : List Capability := [
  .matrix, .shader, .geometry, .tessellation, .addresses, .linkage, .kernel, .vector16,
  .float16Buffer, .float16, .float64, .int64, .int16, .int8, .clipDistance, .cullDistance]

instance : Vocabulary Capability where
  all := all
  name := name
  other := .other
  listed_or_other a := by cases a <;> simp [all]
  name_other _ := rfl
  isName_of_listed := by decide +kernel
  names_nodup := by decide +kernel

end Capability

inductive AddressingModel where
  | logical | physical32 | physical64
  | other (code : UInt32)
deriving DecidableEq, Repr

namespace AddressingModel

def name : AddressingModel → String
  | .logical => "Logical"
  | .physical32 => "Physical32"
  | .physical64 => "Physical64"
  | .other code => code.toNat.repr

def all : List AddressingModel := [
  .logical, .physical32, .physical64]

instance : Vocabulary AddressingModel where
  all := all
  name := name
  other := .other
  listed_or_other a := by cases a <;> simp [all]
  name_other _ := rfl
  isName_of_listed := by decide +kernel
  names_nodup := by decide +kernel

end AddressingModel

inductive MemoryModel where
  | simple | glsl450 | openCL | vulkan
  | other (code : UInt32)
deriving DecidableEq, Repr

namespace MemoryModel

def name : MemoryModel → String
  | .simple => "Simple"
  | .glsl450 => "GLSL450"
  | .openCL => "OpenCL"
  | .vulkan => "Vulkan"
  | .other code => code.toNat.repr

def all : List MemoryModel := [
  .simple, .glsl450, .openCL, .vulkan]

instance : Vocabulary MemoryModel where
  all := all
  name := name
  other := .other
  listed_or_other a := by cases a <;> simp [all]
  name_other _ := rfl
  isName_of_listed := by decide +kernel
  names_nodup := by decide +kernel

end MemoryModel

inductive ExecutionModel where
  | vertex | tessellationControl | tessellationEvaluation | geometry | fragment | glCompute
  | kernel
  | other (code : UInt32)
deriving DecidableEq, Repr

namespace ExecutionModel

def name : ExecutionModel → String
  | .vertex => "Vertex"
  | .tessellationControl => "TessellationControl"
  | .tessellationEvaluation => "TessellationEvaluation"
  | .geometry => "Geometry"
  | .fragment => "Fragment"
  | .glCompute => "GLCompute"
  | .kernel => "Kernel"
  | .other code => code.toNat.repr

def all : List ExecutionModel := [
  .vertex, .tessellationControl, .tessellationEvaluation, .geometry, .fragment, .glCompute,
  .kernel]

instance : Vocabulary ExecutionModel where
  all := all
  name := name
  other := .other
  listed_or_other a := by cases a <;> simp [all]
  name_other _ := rfl
  isName_of_listed := by decide +kernel
  names_nodup := by decide +kernel

end ExecutionModel

end Shader
