import Shader.Module.Edit
import Shader.Proofs.Changes

/-!
Building continues a module. Every operation gives out ids and takes none back, so it is enough to
ask of the last module that ids have not run out.
-/

namespace Shader
namespace Build

class Monotone {α : Type} (x : Build α) : Prop where
  issued_le : ∀ m, m.issued ≤ (x m).2.issued

/-- What the operation answers and leaves behind when started on `m`, unless ids have run out. -/
def Ensures {α : Type} (x : Build α) (m : Module) (post : α → Module → Prop) : Prop :=
  (x m).2.IdsFit → post (x m).1 (x m).2

section Combining
variable {α β : Type}

instance (a : α) : Monotone (pure a : Build α) := ⟨fun _ => Nat.le_refl _⟩

instance (x : Build α) (f : α → Build β) [first : Monotone x] [second : ∀ a, Monotone (f a)] :
    Monotone (x >>= f) :=
  ⟨fun m => Nat.le_trans (first.issued_le m) ((second _).issued_le _)⟩

instance (f : α → β) (x : Build α) [mono : Monotone x] : Monotone (f <$> x) := ⟨mono.issued_le⟩

instance (c : Prop) [Decidable c] (x y : Build α) [Monotone x] [Monotone y] :
    Monotone (if c then x else y) := by
  split <;> infer_instance

instance (xs : List α) (f : α → Build β) [each : ∀ a, Monotone (f a)] : Monotone (xs.mapM f) := by
  induction xs with
  | nil =>
    rw [List.mapM_nil]
    infer_instance
  | cons x xs ih =>
    rw [List.mapM_cons]
    infer_instance

instance (xs : List α) (f : α → Build PUnit) [each : ∀ a, Monotone (f a)] :
    Monotone (xs.forM f) := by
  induction xs with
  | nil => exact inferInstanceAs (Monotone (pure PUnit.unit))
  | cons x xs ih => exact inferInstanceAs (Monotone (f x >>= fun _ => xs.forM f))

theorem Ensures.bind {x : Build α} {f : α → Build β} {m : Module} {mid : α → Module → Prop}
    {post : β → Module → Prop} (first : x.Ensures m mid) (later : ∀ a, Monotone (f a))
    (second : ∀ a m', mid a m' → (f a).Ensures m' post) : (x >>= f).Ensures m post := by
  intro fit
  have middle : (x m).2.IdsFit := fit.of_le ((later (x m).1).issued_le (x m).2)
  exact second _ _ (first middle) fit

theorem Ensures.map {x : Build α} {f : α → β} {m : Module} {post : β → Module → Prop}
    (inner : x.Ensures m fun a m' => post (f a) m') : (f <$> x).Ensures m post := inner

theorem Ensures.imp {x : Build α} {m : Module} {strong weak : α → Module → Prop}
    (known : x.Ensures m strong) (weaken : ∀ a m', strong a m' → weak a m') : x.Ensures m weak :=
  fun fit => weaken _ _ (known fit)

theorem Ensures.of_run {x : Build α} {m m' : Module} {a : α} {post : α → Module → Prop}
    (known : x.Ensures m post) (run : x m = (a, m')) (fit : m'.IdsFit) : post a m' := by
  unfold Ensures at known
  rw [run] at known
  exact known fit

theorem Ensures.pure {a : α} {m : Module} {post : α → Module → Prop} (here : post a m) :
    (Pure.pure a : Build α).Ensures m post := fun _ => here

theorem issued_le_ensures (x : Build α) [mono : Monotone x] (m : Module) :
    x.Ensures m fun _ m' => m.issued ≤ m'.issued := fun _ => mono.issued_le m

end Combining

instance : Monotone freshId := ⟨fun _ => Nat.le_succ _⟩

instance (d : TypeDecl) : Monotone (declareType d) := by
  constructor
  intro m
  unfold declareType
  split
  · exact Nat.le_refl _
  · exact Nat.le_succ _

instance (d : ConstDecl) : Monotone (declareConstant d) := by
  constructor
  intro m
  unfold declareConstant
  split
  · exact Nat.le_refl _
  · exact Nat.le_succ _

instance (capability : Capability) : Monotone (enableCapability capability) := by
  constructor
  intro m
  change m.issued ≤ (m.addCapability capability).issued
  unfold Module.addCapability
  split <;> exact Nat.le_refl _

instance (addressing : AddressingModel) (memory : MemoryModel) :
    Monotone (setMemoryModel addressing memory) := ⟨fun _ => Nat.le_refl _⟩

instance (entry : EntryPoint) : Monotone (addEntryPoint entry) := ⟨fun _ => Nat.le_refl _⟩

instance (d : VarDecl) : Monotone (declareVariable d) := ⟨fun _ => Nat.le_succ _⟩

instance (i : Instruction) : Monotone (emit i) := ⟨fun _ => Nat.le_refl _⟩

instance (opcode : Opcode) (type : ResultId) (operands : List Operand) :
    Monotone (emitValue opcode type operands) := ⟨fun _ => Nat.le_succ _⟩

instance (i : Instruction) : Monotone (annotate i) := ⟨fun _ => Nat.le_refl _⟩

instance (i : Instruction) : Monotone (attachName i) := ⟨fun _ => Nat.le_refl _⟩

instance (value : UInt32) : Monotone (wordConstant value) := by
  unfold wordConstant
  infer_instance

instance (value : Binary32) : Monotone (floatConstant value) := by
  unfold floatConstant
  infer_instance

instance (type : ResultId) (parts : List ResultId) : Monotone (compositeConstant type parts) :=
  inferInstanceAs (Monotone (declareConstant _))

instance (resultType id functionType : ResultId) :
    Monotone (beginFunction resultType id functionType) := inferInstanceAs (Monotone (emit _))

instance : Monotone endFunction := inferInstanceAs (Monotone (emit _))

instance (id : ResultId) : Monotone (label id) := inferInstanceAs (Monotone (emit _))

instance : Monotone returnVoid := inferInstanceAs (Monotone (emit _))

instance (type pointer : ResultId) : Monotone (load type pointer) :=
  inferInstanceAs (Monotone (emitValue _ _ _))

instance (pointer object : ResultId) : Monotone (store pointer object) :=
  inferInstanceAs (Monotone (emit _))

instance (type object composite : ResultId) (indices : List UInt32) :
    Monotone (compositeInsert type object composite indices) :=
  inferInstanceAs (Monotone (emitValue _ _ _))

instance (type first second : ResultId) (selectors : List UInt32) :
    Monotone (vectorShuffle type first second selectors) :=
  inferInstanceAs (Monotone (emitValue _ _ _))

instance (type base : ResultId) (indices : List ResultId) :
    Monotone (accessChain type base indices) := inferInstanceAs (Monotone (emitValue _ _ _))

instance (target : ResultId) (decoration : Decoration) (operands : List Operand) :
    Monotone (decorate target decoration operands) := inferInstanceAs (Monotone (annotate _))

instance (target : ResultId) (member : UInt32) (builtIn : BuiltIn) :
    Monotone (decorateMember target member builtIn) := inferInstanceAs (Monotone (annotate _))

instance (target : ResultId) (text : String) : Monotone (name target text) :=
  inferInstanceAs (Monotone (attachName _))

instance (target : ResultId) (member : UInt32) (text : String) :
    Monotone (nameMember target member text) := inferInstanceAs (Monotone (attachName _))

section Continuing
variable {m : Module}

theorem freshId_ensures (co : m.Coherent) :
    freshId.Ensures m fun id m' => id = m.freshId ∧ m' = m.advance ∧ m.Continues m' :=
  fun fit => ⟨rfl, rfl, Module.continues_advance co fit⟩

theorem declareType_ensures (co : m.Coherent) (d : TypeDecl) :
    (declareType d).Ensures m fun id m' => m.Continues m' ∧ m'.typeDecl? id = some d := by
  intro fit
  unfold declareType at fit ⊢
  split at fit
  · rename_i id found
    exact ⟨⟨co, .refl m⟩, ((co.sharedType d id).1 found).2⟩
  · rename_i new
    exact ⟨Module.continues_addType co fit new, by simp⟩

theorem declareConstant_ensures (co : m.Coherent) {d : ConstDecl} (number : m.HasNumberType d) :
    (declareConstant d).Ensures m fun id m' => m.Continues m' ∧ m'.constDecl? id = some d := by
  intro fit
  unfold declareConstant at fit ⊢
  split at fit
  · rename_i id found
    exact ⟨⟨co, .refl m⟩, (co.sharedConstant d id).1 found⟩
  · rename_i new
    exact ⟨Module.continues_addConstant co fit new number, by simp⟩

theorem wordConstant_ensures (co : m.Coherent) (value : UInt32) :
    (wordConstant value).Ensures m fun id m' => m.Continues m' ∧
      ∃ type, m'.constDecl? id = some (.word type value) := by
  refine (declareType_ensures co _).bind inferInstance ?_
  rintro type m₁ ⟨first, known⟩
  refine (declareConstant_ensures first.coherent (d := .word type value) known).imp ?_
  rintro id m₂ ⟨second, found⟩
  exact ⟨first.trans second, type, found⟩

theorem floatConstant_ensures (co : m.Coherent) (value : Binary32) :
    (floatConstant value).Ensures m fun id m' => m.Continues m' ∧
      ∃ type, m'.constDecl? id = some (.float type value) := by
  refine (declareType_ensures co _).bind inferInstance ?_
  rintro type m₁ ⟨first, known⟩
  refine (declareConstant_ensures first.coherent (d := .float type value) known).imp ?_
  rintro id m₂ ⟨second, found⟩
  exact ⟨first.trans second, type, found⟩

theorem declareVariable_ensures (co : m.Coherent) (d : VarDecl) :
    (declareVariable d).Ensures m fun id m' => id = m.freshId ∧ m' = m.addVariable d ∧
      m.Continues m' :=
  fun fit => ⟨rfl, rfl, Module.continues_addVariable co fit⟩

theorem emitValue_ensures (co : m.Coherent) (opcode : Opcode) (type : ResultId)
    (operands : List Operand) :
    (emitValue opcode type operands).Ensures m fun id m' => id = m.freshId ∧
      m' = m.addValue opcode type operands ∧ m.Continues m' :=
  fun fit => ⟨rfl, rfl, Module.continues_addValue co opcode type operands fit⟩

end Continuing

end Build

namespace Edit
open Build

instance (action : Build Unit) [Monotone action] : Monotone (silently action) := by
  unfold silently
  infer_instance

instance (e : Edit) : Monotone e.perform := by
  cases e <;> unfold perform <;> infer_instance

theorem silently_ensures {action : Build Unit} {m : Module} {post : Module → Prop}
    (kept : action.Ensures m fun _ m' => post m') :
    (silently action).Ensures m fun _ m' => post m' :=
  kept.bind inferInstance fun _ _ here => .pure here

theorem perform_ensures {m : Module} (co : m.Coherent) (e : Edit) :
    e.perform.Ensures m fun _ m' => m.Continues m' := by
  cases e with
  | freshId => exact .map ((freshId_ensures co).imp fun _ _ h => h.2.2)
  | enableCapability capability =>
    exact silently_ensures fun _ => Module.continues_addCapability co capability
  | setMemoryModel addressing memory =>
    exact silently_ensures fun _ => Module.continues_memoryModel co addressing memory
  | addEntryPoint entry =>
    exact silently_ensures fun _ => Module.continues_entryPoint co entry
  | declareType d => exact .map ((declareType_ensures co d).imp fun _ _ h => h.1)
  | wordConstant value => exact .map ((wordConstant_ensures co value).imp fun _ _ h => h.1)
  | floatConstant value => exact .map ((floatConstant_ensures co value).imp fun _ _ h => h.1)
  | compositeConstant type parts =>
    exact .map ((declareConstant_ensures co (d := .composite type parts) trivial).imp
      fun _ _ h => h.1)
  | declareVariable d => exact .map ((declareVariable_ensures co d).imp fun _ _ h => h.2.2)
  | beginFunction resultType id functionType =>
    exact silently_ensures fun _ => Module.continues_addCode co rfl
  | endFunction => exact silently_ensures fun _ => Module.continues_addCode co rfl
  | label id => exact silently_ensures fun _ => Module.continues_addCode co rfl
  | returnVoid => exact silently_ensures fun _ => Module.continues_addCode co rfl
  | load type pointer => exact .map ((emitValue_ensures co _ _ _).imp fun _ _ h => h.2.2)
  | store pointer object => exact silently_ensures fun _ => Module.continues_addCode co rfl
  | compositeInsert type object composite indices =>
    exact .map ((emitValue_ensures co _ _ _).imp fun _ _ h => h.2.2)
  | vectorShuffle type first second selectors =>
    exact .map ((emitValue_ensures co _ _ _).imp fun _ _ h => h.2.2)
  | accessChain type base indices =>
    exact .map ((emitValue_ensures co _ _ _).imp fun _ _ h => h.2.2)
  | decorate target decoration operands =>
    exact silently_ensures fun _ => Module.continues_addAnnotation co _
  | decorateMember target member builtIn =>
    exact silently_ensures fun _ => Module.continues_addAnnotation co _
  | name target text => exact silently_ensures fun _ => Module.continues_addName co _
  | nameMember target member text => exact silently_ensures fun _ => Module.continues_addName co _

end Edit

namespace Module

theorem issued_le_replay (m : Module) (history : List Edit) :
    m.issued ≤ (m.replay history).issued := by
  induction history generalizing m with
  | nil => exact Nat.le_refl _
  | cons e es ih => exact Nat.le_trans (Build.Monotone.issued_le (x := e.perform) m) (ih _)

theorem replay_continues {m : Module} (co : m.Coherent) (history : List Edit)
    (fit : (m.replay history).IdsFit) : m.Continues (m.replay history) := by
  induction history generalizing m with
  | nil => exact ⟨co, .refl m⟩
  | cons e es ih =>
    have stepFit : (m.edit e).IdsFit := fit.of_le (issued_le_replay _ es)
    have step : m.Continues (m.edit e) := e.perform_ensures co stepFit
    exact step.trans (ih step.coherent fit)

theorem Reachable.coherent {m : Module} (reachable : m.Reachable) (fit : m.IdsFit) :
    m.Coherent := by
  obtain ⟨history, rfl⟩ := reachable
  exact (replay_continues coherent_empty history fit).coherent

end Module
end Shader
