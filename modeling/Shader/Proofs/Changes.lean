import Shader.Proofs.Coherence

/-!
The changes that building makes to a module, one at a time: each of them continues the module, as
long as ids do not run out.
-/

namespace Shader

theorem assoc?_concat {κ α : Type} [DecidableEq κ] (key other : κ) (value : α)
    (es : List (κ × α)) :
    assoc? key (es ++ [(other, value)]) =
      (assoc? key es).or (if key = other then some value else none) := by
  induction es with
  | nil => simp [assoc?]
  | cons e es ih =>
    simp only [List.cons_append, assoc?]
    split
    · rfl
    · exact ih

theorem assoc?_concat_iff {κ : Type} [DecidableEq κ] {es : List (κ × ResultId)}
    {known : κ → ResultId → Prop} (exact : ∀ key id, assoc? key es = some id ↔ known key id)
    {d : κ} {fresh : ResultId} (new : assoc? d es = none) (unknown : ∀ key, ¬known key fresh)
    (key : κ) (id : ResultId) :
    assoc? key (es ++ [(d, fresh)]) = some id ↔ if id = fresh then key = d else known key id := by
  rw [assoc?_concat]
  by_cases same : key = d
  · subst same
    simp only [new, Option.none_or, ↓reduceIte, Option.some.injEq]
    split
    · rename_i here
      simp [here]
    · rename_i elsewhere
      rw [← exact, new]
      simp [Ne.symm elsewhere]
  · simp only [same, ↓reduceIte, Option.or_none, exact]
    split
    · rename_i here
      subst here
      simpa using unknown key
    · rfl

namespace Module
open Instruction (results)

/-! What the single changes do to look-ups. -/

@[simp] theorem typeDecl?_addType (m : Module) (d : TypeDecl) (id : ResultId) :
    (m.addType d).typeDecl? id = if id = m.freshId then some d else m.typeDecl? id :=
  Table.get?_insert ..

@[simp] theorem constDecl?_addConstant (m : Module) (d : ConstDecl) (id : ResultId) :
    (m.addConstant d).constDecl? id = if id = m.freshId then some d else m.constDecl? id :=
  Table.get?_insert ..

@[simp] theorem varDecl?_addVariable (m : Module) (d : VarDecl) (id : ResultId) :
    (m.addVariable d).varDecl? id = if id = m.freshId then some d else m.varDecl? id :=
  Table.get?_insert ..

@[simp] theorem resultType?_addValue (m : Module) (opcode : Opcode) (type : ResultId)
    (operands : List Operand) (id : ResultId) :
    (m.addValue opcode type operands).resultType? id =
      if id = m.freshId then some type else m.resultType? id :=
  Table.get?_insert ..

/-! The changes themselves. -/

theorem Coherent.of_same_declarations {m m' : Module} (co : m.Coherent) (fit : m'.IdsFit)
    (grown : m.Extends m') (globals : m'.globals = m.globals) (typeIds : m'.typeIds = m.typeIds)
    (constIds : m'.constIds = m.constIds) (types : m'.types = m.types)
    (constants : m'.constants = m.constants) (vars : m'.vars = m.vars)
    (computed : ∀ i ∈ m'.code, i.computes → ∀ id, i.result = some id → id.index ≤ m'.issued) :
    m'.Coherent where
  fit := fit
  declared i member := by
    obtain ⟨id, declares⟩ := co.declared i (globals ▸ member)
    exact ⟨id, grown.declares co declares⟩
  declaration id i declares := by
    rw [globals]
    refine co.declaration id i ?_
    cases declares with
    | type known => exact .type (by rwa [typeDecl?, types] at known)
    | constant known => exact .constant (by rwa [constDecl?, constants] at known)
    | var known => exact .var (by rwa [varDecl?, vars] at known)
  increasing := globals ▸ co.increasing
  given id member := Nat.le_trans (co.given id (globals ▸ member)) grown.issued
  sharedType d id := by
    rw [typeIds, typeDecl?, types]
    exact co.sharedType d id
  sharedConstant d id := by
    rw [constIds, constDecl?, constants]
    exact co.sharedConstant d id
  numberType id d known := by
    rw [constDecl?, constants] at known
    exact grown.hasNumberType co (co.numberType id d known)
  computed := computed

theorem continues_advance {m : Module} (co : m.Coherent) (fit : m.advance.IdsFit) :
    m.Continues m.advance := by
  have grown : m.Extends m.advance := { Extends.refl m with issued := Nat.le_succ _ }
  refine ⟨co.of_same_declarations fit grown rfl rfl rfl rfl rfl rfl ?_, grown⟩
  intro i member computes id result
  exact Nat.le_succ_of_le (co.computed i member computes id result)

/-- Sections other than the declarations may be appended to freely, except that code that computes
values comes with new ids. -/
theorem continues_sections {m : Module} (co : m.Coherent) {capabilities : List Capability}
    {memoryModel : Option (AddressingModel × MemoryModel)} {entryPoints : List EntryPoint}
    {names annotations code : List Instruction} (cs : m.capabilities <+: capabilities)
    (es : m.entryPoints <+: entryPoints) (ns : m.names <+: names)
    (ans : m.annotations <+: annotations) (is : m.code <+: code)
    (quiet : ∀ i ∈ code, i ∈ m.code ∨ i.computes = false) :
    m.Continues { m with
      capabilities := capabilities, memoryModel := memoryModel, entryPoints := entryPoints,
      names := names, annotations := annotations, code := code } := by
  have grown : m.Extends { m with
      capabilities := capabilities, memoryModel := memoryModel, entryPoints := entryPoints,
      names := names, annotations := annotations, code := code } :=
    { Extends.refl m with
      capabilities := cs, entryPoints := es, names := ns, annotations := ans, code := is }
  refine ⟨co.of_same_declarations co.fit grown rfl rfl rfl rfl rfl rfl ?_, grown⟩
  intro i member computes id result
  rcases quiet i member with old | silent
  · exact co.computed i old computes id result
  · rw [silent] at computes
    cases computes

theorem continues_addCode {m : Module} (co : m.Coherent) {i : Instruction}
    (silent : i.computes = false) : m.Continues (m.addCode i) := by
  refine continues_sections co List.prefix_rfl List.prefix_rfl List.prefix_rfl List.prefix_rfl
    (List.prefix_append _ _) ?_
  intro j member
  rcases List.mem_append.1 member with old | new
  · exact .inl old
  · exact .inr (List.mem_singleton.1 new ▸ silent)

theorem continues_addCapability {m : Module} (co : m.Coherent) (capability : Capability) :
    m.Continues (m.addCapability capability) := by
  unfold addCapability
  split
  · exact ⟨co, .refl m⟩
  · exact continues_sections co (List.prefix_append _ _) List.prefix_rfl List.prefix_rfl
      List.prefix_rfl List.prefix_rfl fun _ old => .inl old

theorem continues_memoryModel {m : Module} (co : m.Coherent) (addressing : AddressingModel)
    (memory : MemoryModel) : m.Continues { m with memoryModel := some (addressing, memory) } :=
  continues_sections co List.prefix_rfl List.prefix_rfl List.prefix_rfl List.prefix_rfl
    List.prefix_rfl fun _ old => .inl old

theorem continues_entryPoint {m : Module} (co : m.Coherent) (entry : EntryPoint) :
    m.Continues { m with entryPoints := m.entryPoints ++ [entry] } :=
  continues_sections co List.prefix_rfl (List.prefix_append _ _) List.prefix_rfl List.prefix_rfl
    List.prefix_rfl fun _ old => .inl old

theorem continues_addName {m : Module} (co : m.Coherent) (i : Instruction) :
    m.Continues (m.addName i) :=
  continues_sections co List.prefix_rfl List.prefix_rfl (List.prefix_append _ _) List.prefix_rfl
    List.prefix_rfl fun _ old => .inl old

theorem continues_addAnnotation {m : Module} (co : m.Coherent) (i : Instruction) :
    m.Continues (m.addAnnotation i) :=
  continues_sections co List.prefix_rfl List.prefix_rfl List.prefix_rfl (List.prefix_append _ _)
    List.prefix_rfl fun _ old => .inl old

theorem extends_addValue {m : Module} (fit : m.IdsFit) (opcode : Opcode) (type : ResultId)
    (operands : List Operand) : m.Extends (m.addValue opcode type operands) :=
  { Extends.refl m with
    issued := Nat.le_succ _
    code := List.prefix_append _ _
    resultTypes := fun id given => by simp [ne_freshId fit given] }

theorem continues_addValue {m : Module} (co : m.Coherent) (opcode : Opcode) (type : ResultId)
    (operands : List Operand) (fit : (m.addValue opcode type operands).IdsFit) :
    m.Continues (m.addValue opcode type operands) := by
  have grown := extends_addValue co.fit opcode type operands
  refine ⟨co.of_same_declarations fit grown rfl rfl rfl rfl rfl rfl ?_, grown⟩
  intro i member computes id result
  rcases List.mem_append.1 member with old | new
  · exact Nat.le_succ_of_le (co.computed i old computes id result)
  · obtain rfl := List.mem_singleton.1 new
    cases result
    exact Nat.le_of_eq (index_freshId co.fit)

/-- A declaration adds one instruction under the next id, and the caches stay inverse to the
tables. -/
theorem Coherent.of_declaration {m m' : Module} {i : Instruction} (co : m.Coherent)
    (fit : m'.IdsFit) (grown : m.Extends m') (issued : m'.issued = m.issued + 1)
    (globals : m'.globals = m.globals ++ [i]) (code : m'.code = m.code)
    (new : m'.Declares m.freshId i)
    (only : ∀ id j, m'.Declares id j → m.Declares id j ∨ j = i)
    (sharedType : ∀ d id, assoc? d m'.typeIds = some id ↔ d.isShared ∧ m'.typeDecl? id = some d)
    (sharedConstant : ∀ d id, assoc? d m'.constIds = some id ↔ m'.constDecl? id = some d)
    (numberType : ∀ id d, m'.constDecl? id = some d → m'.HasNumberType d) : m'.Coherent where
  fit := fit
  declared j member := by
    rcases List.mem_append.1 (globals ▸ member) with old | last
    · obtain ⟨id, declares⟩ := co.declared j old
      exact ⟨id, grown.declares co declares⟩
    · obtain rfl := List.mem_singleton.1 last
      exact ⟨m.freshId, new⟩
  declaration id j declares := by
    rw [globals]
    rcases only id j declares with old | rfl
    · exact List.mem_append_left _ (co.declaration id j old)
    · exact List.mem_append_right _ (List.mem_singleton_self _)
  increasing := by
    rw [globals, Instruction.results_append]
    refine List.pairwise_append.2 ⟨co.increasing, ?_, ?_⟩
    · simp [results, new.result]
    · intro a early b late
      obtain rfl : b = m.freshId := by simpa [results, new.result] using late
      exact lt_freshId co.fit (co.given a early)
  given id member := by
    rw [globals, Instruction.results_append] at member
    rw [issued]
    rcases List.mem_append.1 member with old | last
    · exact Nat.le_succ_of_le (co.given id old)
    · obtain rfl : id = m.freshId := by simpa [results, new.result] using last
      exact Nat.le_of_eq (index_freshId co.fit)
  sharedType := sharedType
  sharedConstant := sharedConstant
  numberType := numberType
  computed j member computes id result := by
    rw [issued]
    exact Nat.le_succ_of_le (co.computed j (code ▸ member) computes id result)

theorem extends_addType {m : Module} (fit : m.IdsFit) (d : TypeDecl) : m.Extends (m.addType d) :=
  { Extends.refl m with
    issued := Nat.le_succ _
    globals := ⟨[d.instruction m.freshId], rfl, by
      simp [results, TypeDecl.instruction, index_freshId fit]⟩
    types := fun id given => by simp [ne_freshId fit given] }

theorem extends_addConstant {m : Module} (fit : m.IdsFit) (d : ConstDecl) :
    m.Extends (m.addConstant d) :=
  { Extends.refl m with
    issued := Nat.le_succ _
    globals := ⟨[d.instruction m.freshId], rfl, by
      simp [results, ConstDecl.instruction, index_freshId fit]⟩
    constants := fun id given => by simp [ne_freshId fit given] }

theorem extends_addVariable {m : Module} (fit : m.IdsFit) (d : VarDecl) :
    m.Extends (m.addVariable d) :=
  { Extends.refl m with
    issued := Nat.le_succ _
    globals := ⟨[d.instruction m.freshId], rfl, by
      simp [results, VarDecl.instruction, index_freshId fit]⟩
    vars := fun id given => by simp [ne_freshId fit given] }

section Caches
variable {m : Module}

theorem sharedType_addType
    (exact : ∀ d id, assoc? d m.typeIds = some id ↔ d.isShared ∧ m.typeDecl? id = some d)
    (unknown : m.typeDecl? m.freshId = none) {d : TypeDecl} (new : assoc? d m.typeIds = none)
    (e : TypeDecl) (id : ResultId) :
    assoc? e (m.addType d).typeIds = some id ↔
      e.isShared ∧ (m.addType d).typeDecl? id = some e := by
  rw [typeDecl?_addType, show (m.addType d).typeIds =
    if d.isShared then m.typeIds ++ [(d, m.freshId)] else m.typeIds from rfl]
  have unshared : ∀ e : TypeDecl, ¬(e.isShared ∧ m.typeDecl? m.freshId = some e) := by
    rintro e ⟨-, known⟩
    rw [unknown] at known
    cases known
  by_cases shared : d.isShared
  · rw [if_pos shared, assoc?_concat_iff exact new unshared]
    split
    · constructor
      · rintro rfl
        exact ⟨shared, rfl⟩
      · intro same
        exact (Option.some.inj same.2).symm
    · rfl
  · rw [if_neg shared, exact e id]
    split
    · rename_i here
      subst here
      constructor
      · intro known
        exact absurd known (unshared e)
      · rintro ⟨isShared, same⟩
        cases same
        exact absurd isShared shared
    · rfl

theorem sharedConstant_addConstant
    (exact : ∀ d id, assoc? d m.constIds = some id ↔ m.constDecl? id = some d)
    (unknown : m.constDecl? m.freshId = none) {d : ConstDecl} (new : assoc? d m.constIds = none)
    (e : ConstDecl) (id : ResultId) :
    assoc? e (m.addConstant d).constIds = some id ↔ (m.addConstant d).constDecl? id = some e := by
  have nothing : ∀ e : ConstDecl, m.constDecl? m.freshId ≠ some e := by
    intro e known
    rw [unknown] at known
    cases known
  rw [constDecl?_addConstant, show (m.addConstant d).constIds =
    m.constIds ++ [(d, m.freshId)] from rfl, assoc?_concat_iff exact new nothing]
  split
  · rw [Option.some.injEq, eq_comm]
  · rfl

end Caches

theorem continues_addType {m : Module} (co : m.Coherent) {d : TypeDecl}
    (fit : (m.addType d).IdsFit) (new : assoc? d m.typeIds = none) :
    m.Continues (m.addType d) := by
  have grown := extends_addType co.fit d
  have unknown : m.typeDecl? m.freshId = none :=
    Option.eq_none_iff_forall_ne_some.2 fun e known => ne_freshId co.fit (co.given_of_type known) rfl
  refine ⟨co.of_declaration fit grown rfl rfl rfl (.type (by simp)) ?_
    (sharedType_addType co.sharedType unknown new) co.sharedConstant ?_, grown⟩
  · intro id j declares
    cases declares with
    | type known =>
      rw [typeDecl?_addType] at known
      split at known
      · rename_i same
        cases known
        exact .inr (by rw [same])
      · exact .inl (.type known)
    | constant known => exact .inl (.constant known)
    | var known => exact .inl (.var known)
  · intro id e known
    exact grown.hasNumberType co (co.numberType id e known)

theorem continues_addConstant {m : Module} (co : m.Coherent) {d : ConstDecl}
    (fit : (m.addConstant d).IdsFit) (new : assoc? d m.constIds = none)
    (number : m.HasNumberType d) : m.Continues (m.addConstant d) := by
  have grown := extends_addConstant co.fit d
  have unknown : m.constDecl? m.freshId = none :=
    Option.eq_none_iff_forall_ne_some.2 fun e known =>
      ne_freshId co.fit (co.given_of_constant known) rfl
  refine ⟨co.of_declaration fit grown rfl rfl rfl (.constant (by simp)) ?_ co.sharedType
    (sharedConstant_addConstant co.sharedConstant unknown new) ?_, grown⟩
  · intro id j declares
    cases declares with
    | type known => exact .inl (.type known)
    | constant known =>
      rw [constDecl?_addConstant] at known
      split at known
      · rename_i same
        cases known
        exact .inr (by rw [same])
      · exact .inl (.constant known)
    | var known => exact .inl (.var known)
  · intro id e known
    rw [constDecl?_addConstant] at known
    split at known
    · cases known
      exact grown.hasNumberType co number
    · exact grown.hasNumberType co (co.numberType id e known)

theorem continues_addVariable {m : Module} (co : m.Coherent) {d : VarDecl}
    (fit : (m.addVariable d).IdsFit) : m.Continues (m.addVariable d) := by
  have grown := extends_addVariable co.fit d
  refine ⟨co.of_declaration fit grown rfl rfl rfl (.var (by simp)) ?_ co.sharedType
    co.sharedConstant ?_, grown⟩
  · intro id j declares
    cases declares with
    | type known => exact .inl (.type known)
    | constant known => exact .inl (.constant known)
    | var known =>
      rw [varDecl?_addVariable] at known
      split at known
      · rename_i same
        cases known
        exact .inr (by rw [same])
      · exact .inl (.var known)
  · intro id e known
    exact grown.hasNumberType co (co.numberType id e known)

end Module
end Shader
