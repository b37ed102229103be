import Shader.Module.Query
import Shader.Table.Lemmas

/-!
How the tables of a module hang together with its sections, and when one module continues another.
-/

namespace Shader
namespace Instruction

def computes (i : Instruction) : Bool :=
  i.opcode = .opLoad ∨ i.opcode = .opAccessChain ∨ i.opcode = .opCompositeInsert ∨
    i.opcode = .opVectorShuffle

def results (is : List Instruction) : List ResultId := is.filterMap Instruction.result

@[simp] theorem results_append (is js : List Instruction) :
    results (is ++ js) = results is ++ results js := List.filterMap_append

theorem mem_results {is : List Instruction} {id : ResultId} :
    id ∈ results is ↔ ∃ i ∈ is, i.result = some id := List.mem_filterMap

end Instruction

namespace Module
open Instruction (results mem_results)

/-- The ids given out fit into words, so that none of them was given out twice. -/
def IdsFit (m : Module) : Prop := m.issued + 1 < UInt32.size

instance (m : Module) : Decidable m.IdsFit := inferInstanceAs (Decidable (_ < _))

theorem index_freshId {m : Module} (fit : m.IdsFit) : m.freshId.index = m.issued + 1 :=
  UInt32.toNat_ofNat_of_lt' fit

theorem toNat_bound {m : Module} (fit : m.IdsFit) : m.bound.toNat = m.issued + 1 :=
  UInt32.toNat_ofNat_of_lt' fit

theorem lt_bound_iff {m : Module} (fit : m.IdsFit) {id : ResultId} :
    id.word < m.bound ↔ id.index ≤ m.issued := by
  rw [UInt32.lt_iff_toNat_lt, toNat_bound fit]
  exact Nat.lt_succ_iff

theorem ne_freshId {m : Module} (fit : m.IdsFit) {id : ResultId} (given : id.index ≤ m.issued) :
    id ≠ m.freshId := by
  intro same
  rw [same, index_freshId fit] at given
  omega

theorem lt_freshId {m : Module} (fit : m.IdsFit) {id : ResultId} (given : id.index ≤ m.issued) :
    id < m.freshId := by
  rw [ResultId.lt_iff, index_freshId fit]
  exact Nat.lt_succ_of_le given

inductive Declares (m : Module) (id : ResultId) : Instruction → Prop where
  | type {d : TypeDecl} (known : m.typeDecl? id = some d) : Declares m id (d.instruction id)
  | constant {d : ConstDecl} (known : m.constDecl? id = some d) : Declares m id (d.instruction id)
  | var {d : VarDecl} (known : m.varDecl? id = some d) : Declares m id (d.instruction id)

theorem Declares.result {m : Module} {id : ResultId} {i : Instruction} (declares : m.Declares id i) :
    i.result = some id := by
  cases declares <;> rfl

def HasNumberType (m : Module) : ConstDecl → Prop
  | .word type _ => m.typeDecl? type = some (.int 32 false)
  | .float type _ => m.typeDecl? type = some (.float 32)
  | .composite _ _ => True

/-- The tables say what the sections say. -/
structure Coherent (m : Module) : Prop where
  fit : m.IdsFit
  declared : ∀ i ∈ m.globals, ∃ id, m.Declares id i
  declaration : ∀ id i, m.Declares id i → i ∈ m.globals
  increasing : (results m.globals).Pairwise (· < ·)
  given : ∀ id ∈ results m.globals, id.index ≤ m.issued
  sharedType : ∀ d id, assoc? d m.typeIds = some id ↔ d.isShared ∧ m.typeDecl? id = some d
  sharedConstant : ∀ d id, assoc? d m.constIds = some id ↔ m.constDecl? id = some d
  numberType : ∀ id d, m.constDecl? id = some d → m.HasNumberType d
  computed : ∀ i ∈ m.code, i.computes → ∀ id, i.result = some id → id.index ≤ m.issued

/-- The second module has grown out of the first: sections were appended to, and what the first
says about the ids it gave out still holds. -/
structure Extends (m m' : Module) : Prop where
  issued : m.issued ≤ m'.issued
  capabilities : m.capabilities <+: m'.capabilities
  entryPoints : m.entryPoints <+: m'.entryPoints
  names : m.names <+: m'.names
  annotations : m.annotations <+: m'.annotations
  globals : ∃ later, m'.globals = m.globals ++ later ∧ ∀ id ∈ results later, m.issued < id.index
  code : m.code <+: m'.code
  types : ∀ id, id.index ≤ m.issued → m'.typeDecl? id = m.typeDecl? id
  constants : ∀ id, id.index ≤ m.issued → m'.constDecl? id = m.constDecl? id
  vars : ∀ id, id.index ≤ m.issued → m'.varDecl? id = m.varDecl? id
  resultTypes : ∀ id, id.index ≤ m.issued → m'.resultType? id = m.resultType? id

theorem Extends.refl (m : Module) : m.Extends m where
  issued := Nat.le_refl _
  capabilities := List.prefix_rfl
  entryPoints := List.prefix_rfl
  names := List.prefix_rfl
  annotations := List.prefix_rfl
  globals := ⟨[], by simp, by simp [results]⟩
  code := List.prefix_rfl
  types _ _ := rfl
  constants _ _ := rfl
  vars _ _ := rfl
  resultTypes _ _ := rfl

theorem Extends.trans {a b c : Module} (first : a.Extends b) (second : b.Extends c) :
    a.Extends c := by
  have within : ∀ id : ResultId, id.index ≤ a.issued → id.index ≤ b.issued :=
    fun id given => Nat.le_trans given first.issued
  obtain ⟨new, newEq, newIds⟩ := first.globals
  obtain ⟨newer, newerEq, newerIds⟩ := second.globals
  refine ⟨Nat.le_trans first.issued second.issued, first.capabilities.trans second.capabilities,
    first.entryPoints.trans second.entryPoints, first.names.trans second.names,
    first.annotations.trans second.annotations, ⟨new ++ newer, ?_, ?_⟩,
    first.code.trans second.code, ?_, ?_, ?_, ?_⟩
  · rw [newerEq, newEq, List.append_assoc]
  · intro id member
    rcases List.mem_append.1 (Instruction.results_append new newer ▸ member) with early | late
    · exact newIds id early
    · exact Nat.lt_of_le_of_lt first.issued (newerIds id late)
  · intro id given
    rw [second.types id (within id given), first.types id given]
  · intro id given
    rw [second.constants id (within id given), first.constants id given]
  · intro id given
    rw [second.vars id (within id given), first.vars id given]
  · intro id given
    rw [second.resultTypes id (within id given), first.resultTypes id given]

structure Continues (m m' : Module) : Prop where
  coherent : m'.Coherent
  extension : m.Extends m'

theorem Continues.trans {a b c : Module} (first : a.Continues b) (second : b.Continues c) :
    a.Continues c := ⟨second.coherent, first.extension.trans second.extension⟩

theorem IdsFit.of_le {m m' : Module} (fit : m'.IdsFit) (le : m.issued ≤ m'.issued) : m.IdsFit :=
  Nat.lt_of_le_of_lt (Nat.succ_le_succ le) fit

theorem coherent_empty : empty.Coherent where
  fit := by decide
  declared := by simp [empty]
  declaration := by
    intro id i declares
    cases declares with
    | type known => cases known
    | constant known => cases known
    | var known => cases known
  increasing := .nil
  given := by simp [empty, results]
  sharedType := by
    intro d id
    constructor
    · intro found
      cases found
    · intro known
      cases known.2
  sharedConstant := by
    intro d id
    constructor <;> intro known <;> cases known
  numberType := by
    intro id d known
    cases known
  computed := by simp [empty]

section Known
variable {m : Module} {id : ResultId}

theorem Coherent.given_of_declares {i : Instruction} (co : m.Coherent) (declares : m.Declares id i) :
    id.index ≤ m.issued :=
  co.given id (mem_results.2 ⟨i, co.declaration id i declares, declares.result⟩)

theorem Coherent.given_of_type {d : TypeDecl} (co : m.Coherent) (known : m.typeDecl? id = some d) :
    id.index ≤ m.issued := co.given_of_declares (.type known)

theorem Coherent.given_of_constant {d : ConstDecl} (co : m.Coherent)
    (known : m.constDecl? id = some d) : id.index ≤ m.issued := co.given_of_declares (.constant known)

theorem Coherent.given_of_var {d : VarDecl} (co : m.Coherent) (known : m.varDecl? id = some d) :
    id.index ≤ m.issued := co.given_of_declares (.var known)

variable {m' : Module}

theorem Extends.typeDecl {d : TypeDecl} (grown : m.Extends m') (co : m.Coherent)
    (known : m.typeDecl? id = some d) : m'.typeDecl? id = some d := by
  rw [grown.types id (co.given_of_type known), known]

theorem Extends.constDecl {d : ConstDecl} (grown : m.Extends m') (co : m.Coherent)
    (known : m.constDecl? id = some d) : m'.constDecl? id = some d := by
  rw [grown.constants id (co.given_of_constant known), known]

theorem Extends.varDecl {d : VarDecl} (grown : m.Extends m') (co : m.Coherent)
    (known : m.varDecl? id = some d) : m'.varDecl? id = some d := by
  rw [grown.vars id (co.given_of_var known), known]

theorem Extends.declares {i : Instruction} (grown : m.Extends m') (co : m.Coherent)
    (declares : m.Declares id i) : m'.Declares id i := by
  cases declares with
  | type known => exact .type (grown.typeDecl co known)
  | constant known => exact .constant (grown.constDecl co known)
  | var known => exact .var (grown.varDecl co known)

theorem Extends.hasNumberType {d : ConstDecl} (grown : m.Extends m') (co : m.Coherent)
    (number : m.HasNumberType d) : m'.HasNumberType d := by
  cases d with
  | word type value => exact grown.typeDecl co number
  | float type value => exact grown.typeDecl co number
  | composite type parts => trivial

end Known

end Module
end Shader
