import Shader.Proofs.Booting
import Shader.Proofs.Building

/-!
Definitions before uses. Emitting keeps a module sound: its declarations refer to earlier ones only,
and the machine starts on it. What is emitted into a function refers to declarations and to what the
function has defined so far.
-/

namespace Shader

namespace Operand

theorem refs_literals (words : List UInt32) :
    (words.map Operand.literal).filterMap Operand.ref? = [] := by
  simp [List.filterMap_map, Function.comp_def, Operand.ref?]

theorem refs_refs (ids : List ResultId) : (ids.map Operand.ref).filterMap Operand.ref? = ids := by
  simp [List.filterMap_map, Function.comp_def, Operand.ref?]

end Operand

theorem append_subset_append {known more : List ResultId} (subset : known ⊆ more)
    (tail : List ResultId) : known ++ tail ⊆ more ++ tail :=
  List.append_subset.2 ⟨List.subset_append_of_subset_left _ subset, List.subset_append_right _ _⟩

namespace Instruction

def mentions (i : Instruction) : List ResultId :=
  i.resultType.toList ++ i.operands.filterMap Operand.ref?

/-- Each instruction refers to known ids or to results of earlier ones. -/
def InScope (known : List ResultId) : List Instruction → Prop
  | [] => True
  | i :: is => i.mentions ⊆ known ∧ InScope (known ++ i.result.toList) is

def isStraight (i : Instruction) : Bool :=
  i.opcode = .opLoad ∨ i.opcode = .opStore ∨ i.opcode = .opAccessChain ∨
    i.opcode = .opCompositeInsert ∨ i.opcode = .opVectorShuffle

theorem results_cons (i : Instruction) (is : List Instruction) :
    results (i :: is) = i.result.toList ++ results is := by
  cases result : i.result <;> simp [results, result]

theorem inScope_append {known : List ResultId} {is js : List Instruction} :
    InScope known (is ++ js) ↔ InScope known is ∧ InScope (known ++ results is) js := by
  induction is generalizing known with
  | nil => simp [InScope, results]
  | cons i is ih =>
    rw [List.cons_append, InScope, InScope, ih, results_cons, List.append_assoc, and_assoc]

theorem InScope.mono {known more : List ResultId} (subset : known ⊆ more) {is : List Instruction}
    (inScope : InScope known is) : InScope more is := by
  induction is generalizing known more with
  | nil => trivial
  | cons i is ih =>
    refine ⟨fun id member => subset (inScope.1 member), ih ?_ inScope.2⟩
    exact append_subset_append subset _

theorem InScope.split {is js : List Instruction} {i : Instruction}
    (inScope : InScope [] (is ++ i :: js)) : i.mentions ⊆ results is :=
  (inScope_append.1 inScope).2.1

end Instruction

namespace Module
open Instruction (results mem_results InScope)

/-- Declarations come before their uses, and the machine starts. -/
structure Sound (m : Module) : Prop where
  coherent : m.Coherent
  inScope : InScope [] m.globals
  boots : ∃ s, Machine.boot m = .ok s

theorem sound_empty : empty.Sound := ⟨coherent_empty, trivial, {}, rfl⟩

variable {m m' : Module}

theorem Extends.results_subset (grown : m.Extends m') : results m.globals ⊆ results m'.globals := by
  obtain ⟨later, same, -⟩ := grown.globals
  rw [same, Instruction.results_append]
  exact List.subset_append_left _ _

theorem Extends.not_mem_results (grown : m.Extends m') {id : ResultId} (given : id.index ≤ m.issued)
    (unknown : id ∉ results m.globals) : id ∉ results m'.globals := by
  obtain ⟨later, same, beyond⟩ := grown.globals
  rw [same, Instruction.results_append, List.mem_append]
  rintro (old | new)
  · exact unknown old
  · have := beyond id new
    omega

def scope (m : Module) (defined : List ResultId) : List ResultId := results m.globals ++ defined

theorem Extends.scope_subset (grown : m.Extends m') (defined : List ResultId) :
    m.scope defined ⊆ m'.scope defined :=
  append_subset_append grown.results_subset defined

theorem Coherent.mem_results_of_declares (co : m.Coherent) {id : ResultId} {i : Instruction}
    (declares : m.Declares id i) : id ∈ results m.globals :=
  mem_results.2 ⟨i, co.declaration id i declares, declares.result⟩

theorem Sound.index_lt (sound : m.Sound) {id other : ResultId} {i : Instruction}
    (declares : m.Declares id i) (mentioned : other ∈ i.mentions) : other.index < id.index := by
  obtain ⟨before, after, split⟩ :=
    List.append_of_mem (sound.coherent.declaration id i declares)
  have inScope := sound.inScope
  rw [split] at inScope
  have increasing := sound.coherent.increasing
  rw [split, Instruction.results_append, List.pairwise_append] at increasing
  have here : id ∈ results (i :: after) := mem_results.2 ⟨i, List.mem_cons_self, declares.result⟩
  exact ResultId.lt_iff.1 (increasing.2.2 other (inScope.split mentioned) id here)

theorem Sound.of_same_globals (sound : m.Sound) (continues : m.Continues m')
    (globals : m'.globals = m.globals) : m'.Sound := by
  obtain ⟨s, boots⟩ := sound.boots
  refine ⟨continues.coherent, globals ▸ sound.inScope, s, ?_⟩
  rw [Machine.boot_extends sound.coherent continues.extension continues.coherent.fit boots
    (by rw [globals, List.append_nil])]
  rfl

theorem Sound.of_declaration (sound : m.Sound) (continues : m.Continues m') {i : Instruction}
    (globals : m'.globals = m.globals ++ [i]) (inScope : i.mentions ⊆ results m.globals)
    (runs : ∀ s, Machine.boot m = .ok s → ∃ t, Machine.declare m' s i = .ok t) : m'.Sound := by
  obtain ⟨s, boots⟩ := sound.boots
  obtain ⟨t, declared⟩ := runs s boots
  refine ⟨continues.coherent, ?_, t, ?_⟩
  · rw [globals, Instruction.inScope_append]
    exact ⟨sound.inScope, by simpa using inScope, trivial⟩
  · rw [Machine.boot_extends sound.coherent continues.extension continues.coherent.fit boots globals]
    exact bind_eq_ok.2 ⟨t, declared, rfl⟩

/-- No code is added and no entry point, only declarations and what is said about them. -/
structure Quiet (m m' : Module) : Prop where
  sound : m'.Sound
  extension : m.Extends m'
  code : m'.code = m.code
  entryPoints : m'.entryPoints = m.entryPoints

theorem Quiet.refl (sound : m.Sound) : m.Quiet m := ⟨sound, .refl m, rfl, rfl⟩

theorem Quiet.trans {m₁ m₂ : Module} (first : m.Quiet m₁) (second : m₁.Quiet m₂) : m.Quiet m₂ :=
  ⟨second.sound, first.extension.trans second.extension, second.code.trans first.code,
    second.entryPoints.trans first.entryPoints⟩

theorem Quiet.of_same_globals (sound : m.Sound) (continues : m.Continues m')
    (globals : m'.globals = m.globals) (code : m'.code = m.code)
    (entryPoints : m'.entryPoints = m.entryPoints) : m.Quiet m' :=
  ⟨sound.of_same_globals continues globals, continues.extension, code, entryPoints⟩

/-- The second module is the first with these instructions emitted into a function that has defined
the given ids, and with declarations added for them. -/
structure Emits (defined : List ResultId) (m : Module) (is : List Instruction) (m' : Module) :
    Prop where
  sound : m'.Sound
  extension : m.Extends m'
  code : m'.code = m.code ++ is
  entryPoints : m'.entryPoints = m.entryPoints
  straight : ∀ i ∈ is, i.isStraight
  inScope : InScope (m'.scope defined) is
  distinct : (results is).Nodup
  new : ∀ id ∈ results is, m.issued < id.index ∧ id.index ≤ m'.issued ∧ id ∉ results m'.globals

theorem Quiet.emits (quiet : m.Quiet m') (defined : List ResultId) : Emits defined m [] m' :=
  ⟨quiet.sound, quiet.extension, by simp [quiet.code], quiet.entryPoints, by simp, trivial,
    List.nodup_nil, by simp [results]⟩

theorem Emits.scope_subset {defined : List ResultId} {is : List Instruction}
    (emits : Emits defined m is m') : m.scope defined ⊆ m'.scope (defined ++ results is) := by
  intro id member
  have later := emits.extension.scope_subset defined member
  unfold scope at later ⊢
  rw [← List.append_assoc]
  exact List.mem_append_left _ later

theorem Emits.trans {defined : List ResultId} {m₁ m₂ : Module} {is js : List Instruction}
    (first : Emits defined m is m₁) (second : Emits (defined ++ results is) m₁ js m₂) :
    Emits defined m (is ++ js) m₂ := by
  have subset := second.extension.results_subset
  refine ⟨second.sound, first.extension.trans second.extension, ?_, ?_, ?_, ?_, ?_, ?_⟩
  · rw [second.code, first.code, List.append_assoc]
  · rw [second.entryPoints, first.entryPoints]
  · intro i member
    rcases List.mem_append.1 member with old | new
    · exact first.straight i old
    · exact second.straight i new
  · rw [Instruction.inScope_append]
    unfold scope
    rw [List.append_assoc]
    exact ⟨first.inScope.mono (append_subset_append subset _), second.inScope⟩
  · rw [Instruction.results_append, List.nodup_append]
    refine ⟨first.distinct, second.distinct, ?_⟩
    rintro id early other late rfl
    have below := (first.new id early).2.1
    have above := (second.new id late).1
    omega
  · intro id member
    rw [Instruction.results_append] at member
    rcases List.mem_append.1 member with early | late
    · obtain ⟨above, below, apart⟩ := first.new id early
      exact ⟨above, Nat.le_trans below second.extension.issued,
        second.extension.not_mem_results below apart⟩
    · obtain ⟨above, below, apart⟩ := second.new id late
      exact ⟨Nat.lt_of_le_of_lt first.extension.issued above, below, apart⟩

theorem Quiet.andEmits {defined : List ResultId} {m₁ m₂ : Module} {is : List Instruction}
    (quiet : m.Quiet m₁) (emits : Emits defined m₁ is m₂) : Emits defined m is m₂ := by
  have first : Emits defined m [] m₁ := quiet.emits defined
  exact first.trans (by simpa [results] using emits)

end Module

namespace Build
open Shader.Module (Emits)
open Instruction (results)

section Declaring
variable {m : Module} (sound : m.Sound)
include sound

theorem freshId_quiet : freshId.Ensures m fun id m' => m.Quiet m' ∧ id = m.freshId ∧
    m' = m.advance :=
  fun fit => ⟨.of_same_globals sound (Module.continues_advance sound.coherent fit) rfl rfl rfl,
    rfl, rfl⟩

theorem attachName_quiet (i : Instruction) :
    (attachName i).Ensures m fun _ m' => m.Quiet m' :=
  fun _ => .of_same_globals sound (Module.continues_addName sound.coherent i) rfl rfl rfl

theorem annotate_quiet (i : Instruction) :
    (annotate i).Ensures m fun _ m' => m.Quiet m' :=
  fun _ => .of_same_globals sound (Module.continues_addAnnotation sound.coherent i) rfl rfl rfl

theorem enableCapability_quiet (capability : Capability) :
    (enableCapability capability).Ensures m fun _ m' => m.Quiet m' := by
  intro _
  have same : (m.addCapability capability).globals = m.globals ∧
      (m.addCapability capability).code = m.code ∧
      (m.addCapability capability).entryPoints = m.entryPoints := by
    unfold Module.addCapability
    split <;> exact ⟨rfl, rfl, rfl⟩
  exact .of_same_globals sound (Module.continues_addCapability sound.coherent capability) same.1
    same.2.1 same.2.2

theorem setMemoryModel_quiet (addressing : AddressingModel) (memory : MemoryModel) :
    (setMemoryModel addressing memory).Ensures m fun _ m' => m.Quiet m' :=
  fun _ => .of_same_globals sound
    (Module.continues_memoryModel sound.coherent addressing memory) rfl rfl rfl

theorem declareType_quiet {d : TypeDecl}
    (known : d.operands.filterMap Operand.ref? ⊆ results m.globals) :
    (declareType d).Ensures m fun id m' => m.Quiet m' ∧ m'.typeDecl? id = some d := by
  intro fit
  unfold declareType at fit ⊢
  split at fit
  · rename_i id found
    exact ⟨.refl sound, ((sound.coherent.sharedType d id).1 found).2⟩
  · rename_i new
    have continues := Module.continues_addType sound.coherent fit new
    refine ⟨⟨?_, continues.extension, rfl, rfl⟩, by simp⟩
    exact sound.of_declaration continues rfl known fun s _ => ⟨s, Machine.declare_type s d⟩

theorem declareConstant_quiet {d : ConstDecl} (number : m.HasNumberType d)
    (typeKnown : d.type ∈ results m.globals)
    (known : d.operands.filterMap Operand.ref? ⊆ results m.globals)
    (value : ∀ s, Machine.boot m = .ok s → ∃ c, s.constant d = .ok c) :
    (declareConstant d).Ensures m fun id m' =>
      m.Quiet m' ∧ m'.constDecl? id = some d := by
  intro fit
  unfold declareConstant at fit ⊢
  split at fit
  · rename_i id found
    exact ⟨.refl sound, (sound.coherent.sharedConstant d id).1 found⟩
  · rename_i new
    have continues := Module.continues_addConstant sound.coherent fit new number
    refine ⟨⟨?_, continues.extension, rfl, rfl⟩, by simp⟩
    refine sound.of_declaration continues rfl (List.cons_subset.2 ⟨typeKnown, known⟩) ?_
    intro s boots
    obtain ⟨c, found⟩ := value s boots
    refine ⟨s.apply (.define m.freshId c), ?_⟩
    rw [Machine.declare_constant s (by simp)]
    exact bind_eq_ok.2 ⟨c, found, rfl⟩

theorem wordConstant_quiet (value : UInt32) :
    (wordConstant value).Ensures m fun id m' => m.Quiet m' ∧
      ∃ type, m'.constDecl? id = some (.word type value) := by
  refine (declareType_quiet sound (List.nil_subset _)).bind inferInstance ?_
  rintro type m₁ ⟨first, known⟩
  have typeKnown := first.sound.coherent.mem_results_of_declares (.type known)
  refine (declareConstant_quiet first.sound (d := .word type value) known typeKnown
    (List.nil_subset _) fun _ _ => ⟨_, rfl⟩).imp ?_
  rintro id m₂ ⟨second, found⟩
  exact ⟨first.trans second, type, found⟩

theorem floatConstant_quiet (value : Binary32) :
    (floatConstant value).Ensures m fun id m' => m.Quiet m' ∧
      ∃ type, m'.constDecl? id = some (.float type value) := by
  refine (declareType_quiet sound (List.nil_subset _)).bind inferInstance ?_
  rintro type m₁ ⟨first, known⟩
  have typeKnown := first.sound.coherent.mem_results_of_declares (.type known)
  refine (declareConstant_quiet first.sound (d := .float type value) known typeKnown
    (List.nil_subset _) fun _ _ => ⟨_, rfl⟩).imp ?_
  rintro id m₂ ⟨second, found⟩
  exact ⟨first.trans second, type, found⟩

theorem compositeConstant_quiet {type : ResultId} {parts : List ResultId}
    (typeKnown : type ∈ results m.globals)
    (constants : ∀ part ∈ parts, ∃ d, m.constDecl? part = some d) :
    (compositeConstant type parts).Ensures m fun id m' => m.Quiet m' ∧
      m'.constDecl? id = some (.composite type parts) := by
  refine declareConstant_quiet sound (d := .composite type parts) trivial typeKnown ?_ ?_
  · intro part member
    have : part ∈ parts := by simpa [ConstDecl.operands, Operand.ref?] using member
    obtain ⟨d, known⟩ := constants part this
    exact sound.coherent.mem_results_of_declares (.constant known)
  · intro s boots
    have values : ∃ cs, List.Forall₂ (fun part c => s.value part = .ok c) parts cs := by
      induction parts with
      | nil => exact ⟨[], .nil⟩
      | cons part parts ih =>
        obtain ⟨d, known⟩ := constants part List.mem_cons_self
        obtain ⟨c, found, -⟩ := Machine.boot_constant sound.coherent boots known
        obtain ⟨cs, rest⟩ := ih fun p member => constants p (List.mem_cons_of_mem _ member)
        exact ⟨c :: cs, .cons (Machine.value_of_get found) rest⟩
    obtain ⟨cs, all⟩ := values
    exact ⟨.composite cs, bind_eq_ok.2 ⟨cs, mapM_eq_ok.2 all, rfl⟩⟩

theorem declareVariable_quiet {d : VarDecl} {pointee : ResultId} {storage : StorageClass}
    {c : Contents} (typed : m.typeDecl? d.pointerType = some (.pointer pointee storage))
    (zero : m.zero pointee = .ok c) :
    (declareVariable d).Ensures m fun id m' => m.Quiet m' ∧ m'.varDecl? id = some d ∧
      m.issued < id.index := by
  intro fit
  have continues := Module.continues_addVariable sound.coherent (d := d) fit
  refine ⟨⟨?_, continues.extension, rfl, rfl⟩, ?_, ?_⟩
  · refine sound.of_declaration continues rfl ?_ ?_
    · exact List.cons_subset.2
        ⟨sound.coherent.mem_results_of_declares (.type typed), List.nil_subset _⟩
    · intro s _
      refine ⟨s.apply (.store m.freshId c), ?_⟩
      have known : (m.addVariable d).varDecl? m.freshId = some d := by simp
      refine (Machine.declare_variable s known typed).trans ?_
      have later : (m.addVariable d).zero pointee = .ok c :=
        Module.zero_extends sound.coherent continues.extension fit pointee c zero
      exact bind_eq_ok.2 ⟨c, later, rfl⟩
  · change (m.addVariable d).varDecl? m.freshId = some d
    simp
  · change m.issued < m.freshId.index
    rw [Module.index_freshId sound.coherent.fit]
    exact Nat.lt_succ_self _

/-- A new value does not collide with a declaration: its id is the next one. -/
theorem emitValue_emits {defined : List ResultId} {opcode : Opcode} {type : ResultId}
    {operands : List Operand}
    (straight : ∀ id, Instruction.isStraight ⟨opcode, some id, some type, operands⟩)
    (known : type :: operands.filterMap Operand.ref? ⊆ m.scope defined) :
    (emitValue opcode type operands).Ensures m fun id m' =>
      Emits defined m [⟨opcode, some id, some type, operands⟩] m' := by
  intro fit
  have continues := Module.continues_addValue sound.coherent opcode type operands fit
  refine ⟨sound.of_same_globals continues rfl, continues.extension, rfl, rfl, ?_, ⟨known, trivial⟩,
    List.pairwise_singleton _ _, ?_⟩
  · intro i member
    rw [List.mem_singleton.1 member]
    exact straight _
  · intro id member
    obtain rfl : id = m.freshId := List.mem_singleton.1 member
    have index := Module.index_freshId sound.coherent.fit
    refine ⟨by omega, Nat.le_of_eq index, ?_⟩
    intro old
    have := sound.coherent.given m.freshId old
    omega

theorem store_emits {defined : List ResultId} {pointer object : ResultId}
    (pointerKnown : pointer ∈ m.scope defined)
    (objectKnown : object ∈ m.scope defined) :
    (store pointer object).Ensures m fun _ m' =>
      Emits defined m [⟨.opStore, none, none, [.ref pointer, .ref object]⟩] m' := by
  intro _
  have continues := Module.continues_addCode sound.coherent
    (i := ⟨.opStore, none, none, [.ref pointer, .ref object]⟩) rfl
  refine ⟨sound.of_same_globals continues rfl, continues.extension, rfl, rfl, ?_, ⟨?_, trivial⟩,
    List.nodup_nil, by simp [results]⟩
  · intro i member
    rw [List.mem_singleton.1 member]
    rfl
  · exact List.cons_subset.2 ⟨pointerKnown, List.cons_subset.2 ⟨objectKnown, List.nil_subset _⟩⟩

end Declaring
end Build
end Shader
