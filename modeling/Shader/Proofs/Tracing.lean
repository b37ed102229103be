import Shader.Proofs.Building

/-!
What building is made of. Whatever an operation does, it does in steps that each allocate one id or
write to a section that declares nothing. What every step keeps is kept by every operation, and the
ids along a trace of steps are the numbers from one on.
-/

namespace Shader
namespace Module
open Instruction (results)

/-- An id is allocated: by itself, for a type or a constant that is not found, for a variable, or for
a value that an instruction computes. -/
inductive Allocates (m : Module) : ResultId → Module → Prop where
  | freshId : Allocates m (Build.freshId m).1 (Build.freshId m).2
  | type (d : TypeDecl) (new : assoc? d m.typeIds = none) :
      Allocates m (Build.declareType d m).1 (Build.declareType d m).2
  | constant (d : ConstDecl) (new : assoc? d m.constIds = none) :
      Allocates m (Build.declareConstant d m).1 (Build.declareConstant d m).2
  | var (d : VarDecl) : Allocates m (Build.declareVariable d m).1 (Build.declareVariable d m).2
  | value (opcode : Opcode) (type : ResultId) (operands : List Operand)
      (computes : Instruction.computes ⟨opcode, none, none, []⟩) :
      Allocates m (Build.emitValue opcode type operands m).1
        (Build.emitValue opcode type operands m).2

inductive Writes (m : Module) : Module → Prop where
  | capability (capability : Capability) : Writes m (m.addCapability capability)
  | memoryModel (addressing : AddressingModel) (memory : MemoryModel) :
      Writes m { m with memoryModel := some (addressing, memory) }
  | entryPoint (entry : EntryPoint) : Writes m { m with entryPoints := m.entryPoints ++ [entry] }
  | name (i : Instruction) : Writes m (m.addName i)
  | decoration (i : Instruction) : Writes m (m.addAnnotation i)
  | code (i : Instruction) (silent : i.computes = false) : Writes m (m.addCode i)

/-- The steps from one module to another, with a record of the allocations: the bound before each of
them and the id. -/
inductive Trace : Module → List (UInt32 × ResultId) → Module → Prop where
  | done (m : Module) : Trace m [] m
  | allocate {m m₁ m₂ : Module} {id : ResultId} {log : List (UInt32 × ResultId)}
      (step : m.Allocates id m₁) (rest : Trace m₁ log m₂) : Trace m ((m.bound, id) :: log) m₂
  | write {m m₁ m₂ : Module} {log : List (UInt32 × ResultId)}
      (step : m.Writes m₁) (rest : Trace m₁ log m₂) : Trace m log m₂

theorem Trace.append {a b c : Module} {xs ys : List (UInt32 × ResultId)} (first : a.Trace xs b)
    (second : b.Trace ys c) : a.Trace (xs ++ ys) c := by
  induction first with
  | done m => exact second
  | allocate step rest ih => exact .allocate step (ih second)
  | write step rest ih => exact .write step (ih second)

theorem Allocates.cases {m m' : Module} {id : ResultId} (step : m.Allocates id m') :
    id = m.freshId ∧ (m' = m.advance ∨
      (∃ d, assoc? d m.typeIds = none ∧ m' = m.addType d) ∨
      (∃ d, assoc? d m.constIds = none ∧ m' = m.addConstant d) ∨
      (∃ d, m' = m.addVariable d) ∨
      ∃ opcode type operands, Instruction.computes ⟨opcode, none, none, []⟩ ∧
        m' = m.addValue opcode type operands) := by
  cases step with
  | freshId => exact ⟨rfl, .inl rfl⟩
  | type d new =>
    have miss : Build.declareType d m = (m.freshId, m.addType d) := by simp [Build.declareType, new]
    rw [miss]
    exact ⟨rfl, .inr (.inl ⟨d, new, rfl⟩)⟩
  | constant d new =>
    have miss : Build.declareConstant d m = (m.freshId, m.addConstant d) := by
      simp [Build.declareConstant, new]
    rw [miss]
    exact ⟨rfl, .inr (.inr (.inl ⟨d, new, rfl⟩))⟩
  | var d => exact ⟨rfl, .inr (.inr (.inr (.inl ⟨d, rfl⟩)))⟩
  | value opcode type operands computes =>
    exact ⟨rfl, .inr (.inr (.inr (.inr ⟨opcode, type, operands, computes, rfl⟩)))⟩

theorem Allocates.issued {m m' : Module} {id : ResultId} (step : m.Allocates id m') :
    m'.issued = m.issued + 1 := by
  obtain ⟨-, rfl | ⟨d, -, rfl⟩ | ⟨d, -, rfl⟩ | ⟨d, rfl⟩ | ⟨opcode, type, operands, -, rfl⟩⟩ :=
    step.cases <;> rfl

theorem Writes.issued {m m' : Module} (step : m.Writes m') : m'.issued = m.issued := by
  cases step with
  | capability capability =>
    unfold addCapability
    split <;> rfl
  | _ => rfl

theorem Trace.issued {m m' : Module} {log : List (UInt32 × ResultId)} (trace : m.Trace log m') :
    m'.issued = m.issued + log.length := by
  induction trace with
  | done m => rfl
  | allocate step rest ih =>
    rw [ih, step.issued, List.length_cons]
    omega
  | write step rest ih => rw [ih, step.issued]

/-- What every step keeps as long as ids fit, a trace keeps. -/
theorem Trace.keeps {P : Module → Prop}
    (allocate : ∀ m id m', m.IdsFit → m.Allocates id m' → P m → P m')
    (write : ∀ m m', m.Writes m' → P m → P m') {m m' : Module} {log : List (UInt32 × ResultId)}
    (trace : m.Trace log m') (fit : m'.IdsFit) (start : P m) : P m' := by
  induction trace with
  | done m => exact start
  | @allocate m m₁ m₂ id log step rest ih =>
    have before : m.IdsFit := by
      have later := rest.issued
      have here := step.issued
      exact fit.of_le (by omega)
    exact ih fit (allocate m id m₁ before step start)
  | @write m m₁ m₂ log step rest ih => exact ih fit (write m m₁ step start)

/-! The order of ids. -/

def computations (m : Module) : List Instruction := m.code.filter Instruction.computes

structure Numbered (m : Module) : Prop where
  declared : (results m.globals).Pairwise (· < ·)
  computed : (results m.computations).Pairwise (· < ·)
  declaredGiven : ∀ id ∈ results m.globals, id.index ≤ m.issued
  computedGiven : ∀ id ∈ results m.computations, id.index ≤ m.issued
  apart : ∀ id ∈ results m.computations, id ∉ results m.globals

theorem numbered_empty : empty.Numbered := by
  constructor <;> simp [empty, computations, results]

theorem pairwise_concat_freshId {m : Module} (fit : m.IdsFit) {ids : List ResultId}
    (increasing : ids.Pairwise (· < ·)) (given : ∀ id ∈ ids, id.index ≤ m.issued) :
    (ids ++ [m.freshId]).Pairwise (· < ·) := by
  rw [List.pairwise_append]
  refine ⟨increasing, by simp, ?_⟩
  intro id member other last
  obtain rfl := List.mem_singleton.1 last
  exact lt_freshId fit (given id member)

theorem given_concat_freshId {m : Module} (fit : m.IdsFit) {ids : List ResultId}
    (given : ∀ id ∈ ids, id.index ≤ m.issued) :
    ∀ id ∈ ids ++ [m.freshId], id.index ≤ m.issued + 1 := by
  intro id member
  rcases List.mem_append.1 member with old | last
  · have := given id old
    omega
  · obtain rfl := List.mem_singleton.1 last
    exact Nat.le_of_eq (index_freshId fit)

theorem freshId_not_mem {m : Module} (fit : m.IdsFit) {ids : List ResultId}
    (given : ∀ id ∈ ids, id.index ≤ m.issued) : m.freshId ∉ ids := by
  intro member
  exact ne_freshId fit (given _ member) rfl

theorem Numbered.of_same {m m' : Module} (numbered : m.Numbered) (globals : m'.globals = m.globals)
    (computations : m'.computations = m.computations) (issued : m.issued ≤ m'.issued) :
    m'.Numbered where
  declared := globals ▸ numbered.declared
  computed := computations ▸ numbered.computed
  declaredGiven id member := by
    have := numbered.declaredGiven id (globals ▸ member)
    omega
  computedGiven id member := by
    have := numbered.computedGiven id (computations ▸ member)
    omega
  apart := by
    rw [globals, computations]
    exact numbered.apart

theorem Numbered.declare {m m' : Module} {i : Instruction} (numbered : m.Numbered) (fit : m.IdsFit)
    (result : i.result = some m.freshId) (globals : m'.globals = m.globals ++ [i])
    (computations : m'.computations = m.computations) (issued : m'.issued = m.issued + 1) :
    m'.Numbered := by
  have ids : results m'.globals = results m.globals ++ [m.freshId] := by
    simp [globals, results, result]
  refine ⟨?_, computations ▸ numbered.computed, ?_, ?_, ?_⟩
  · rw [ids]
    exact pairwise_concat_freshId fit numbered.declared numbered.declaredGiven
  · rw [ids, issued]
    exact given_concat_freshId fit numbered.declaredGiven
  · intro id member
    have := numbered.computedGiven id (computations ▸ member)
    omega
  · intro id member
    rw [computations] at member
    simp only [ids, List.mem_append, List.mem_singleton, not_or]
    exact ⟨numbered.apart id member, ne_freshId fit (numbered.computedGiven id member)⟩

theorem Numbered.compute {m m' : Module} {i : Instruction} (numbered : m.Numbered) (fit : m.IdsFit)
    (result : i.result = some m.freshId) (globals : m'.globals = m.globals)
    (computations : m'.computations = m.computations ++ [i]) (issued : m'.issued = m.issued + 1) :
    m'.Numbered := by
  have ids : results m'.computations = results m.computations ++ [m.freshId] := by
    simp [computations, results, result]
  refine ⟨globals ▸ numbered.declared, ?_, ?_, ?_, ?_⟩
  · rw [ids]
    exact pairwise_concat_freshId fit numbered.computed numbered.computedGiven
  · intro id member
    have := numbered.declaredGiven id (globals ▸ member)
    omega
  · rw [ids, issued]
    exact given_concat_freshId fit numbered.computedGiven
  · intro id member
    rw [globals]
    rcases List.mem_append.1 (ids ▸ member) with old | last
    · exact numbered.apart id old
    · obtain rfl := List.mem_singleton.1 last
      exact freshId_not_mem fit numbered.declaredGiven

theorem computations_addCode {m : Module} {i : Instruction} (silent : i.computes = false) :
    (m.addCode i).computations = m.computations := by
  simp [computations, addCode, silent]

theorem computations_addValue (m : Module) {opcode : Opcode} (type : ResultId)
    (operands : List Operand) (computes : Instruction.computes ⟨opcode, none, none, []⟩) :
    (m.addValue opcode type operands).computations =
      m.computations ++ [⟨opcode, some m.freshId, some type, operands⟩] := by
  have here : Instruction.computes ⟨opcode, some m.freshId, some type, operands⟩ := computes
  simp [computations, addValue, here]

theorem Numbered.allocate {m m' : Module} {id : ResultId} (fit : m.IdsFit)
    (step : m.Allocates id m') (numbered : m.Numbered) : m'.Numbered := by
  obtain ⟨-, rfl | ⟨d, -, rfl⟩ | ⟨d, -, rfl⟩ | ⟨d, rfl⟩ |
    ⟨opcode, type, operands, computes, rfl⟩⟩ := step.cases
  · exact numbered.of_same rfl rfl (Nat.le_succ _)
  · exact numbered.declare fit rfl rfl rfl rfl
  · exact numbered.declare fit rfl rfl rfl rfl
  · exact numbered.declare fit rfl rfl rfl rfl
  · exact numbered.compute fit rfl rfl (computations_addValue m type operands computes) rfl

theorem Numbered.write {m m' : Module} (step : m.Writes m') (numbered : m.Numbered) :
    m'.Numbered := by
  have issued := Nat.le_of_eq step.issued.symm
  cases step with
  | capability capability =>
    unfold addCapability at issued ⊢
    split
    · exact numbered
    · exact numbered.of_same rfl rfl (Nat.le_refl _)
  | code i silent => exact numbered.of_same rfl (computations_addCode silent) issued
  | _ => exact numbered.of_same rfl rfl issued

theorem Trace.numbered {m m' : Module} {log : List (UInt32 × ResultId)} (trace : m.Trace log m')
    (fit : m'.IdsFit) (numbered : m.Numbered) : m'.Numbered :=
  trace.keeps (fun _ _ _ fit step numbered => numbered.allocate fit step)
    (fun _ _ step numbered => numbered.write step) fit numbered

end Module

/-! Operations that are made of steps. -/

namespace Build

/-- An operation with the record of its allocations: it takes steps from the module that it starts on
to the one it leaves, and these are the ids that it allocates on the way. -/
class Recorded {α : Type} (x : Build α) where
  log : Module → List (UInt32 × ResultId)
  trace : ∀ m, Module.Trace m (log m) (x m).2

class Traced {α : Type} (x : Build α) : Prop where
  trace : ∀ m, ∃ log, Module.Trace m log (x m).2

instance {α : Type} (x : Build α) [recorded : Recorded x] : Traced x :=
  ⟨fun m => ⟨recorded.log m, recorded.trace m⟩⟩

theorem Traced.of_allocates {x : Build ResultId} (step : ∀ m, Module.Allocates m (x m).1 (x m).2) :
    Traced x := ⟨fun m => ⟨[(m.bound, (x m).1)], .allocate (step m) (.done _)⟩⟩

namespace Recorded
variable {α β : Type}

instance (a : α) : Recorded (pure a : Build α) := ⟨fun _ => [], .done⟩

instance (x : Build α) (f : α → Build β) [first : Recorded x] [second : ∀ a, Recorded (f a)] :
    Recorded (x >>= f) where
  log m := first.log m ++ (second (x m).1).log (x m).2
  trace m := (first.trace m).append ((second (x m).1).trace (x m).2)

instance (f : α → β) (x : Build α) [recorded : Recorded x] : Recorded (f <$> x) :=
  ⟨recorded.log, recorded.trace⟩

instance (c : Prop) [Decidable c] (x y : Build α) [first : Recorded x] [second : Recorded y] :
    Recorded (if c then x else y) where
  log m := if c then first.log m else second.log m
  trace m := by
    split
    · exact first.trace m
    · exact second.trace m

def logEach (f : α → Build β) [each : ∀ a, Recorded (f a)] :
    List α → Module → List (UInt32 × ResultId)
  | [], _ => []
  | a :: as, m => (each a).log m ++ logEach f as (f a m).2

instance (xs : List α) (f : α → Build β) [each : ∀ a, Recorded (f a)] : Recorded (xs.mapM f) where
  log := logEach f xs
  trace m := by
    induction xs generalizing m with
    | nil => exact .done m
    | cons a as ih =>
      rw [List.mapM_cons]
      exact ((each a).trace m).append (ih (f a m).2)

instance (xs : List α) (f : α → Build PUnit) [each : ∀ a, Recorded (f a)] :
    Recorded (xs.forM f) where
  log := logEach f xs
  trace m := by
    induction xs generalizing m with
    | nil => exact .done m
    | cons a as ih => exact ((each a).trace m).append (ih (f a m).2)

abbrev allocating {x : Build ResultId} (step : ∀ m, Module.Allocates m (x m).1 (x m).2) :
    Recorded x where
  log m := [(m.bound, (x m).1)]
  trace m := .allocate (step m) (.done _)

abbrev writing {x : Build α} (step : ∀ m, Module.Writes m (x m).2) : Recorded x where
  log _ := []
  trace m := .write (step m) (.done _)

end Recorded

instance : Recorded freshId := .allocating fun _ => .freshId

instance (d : TypeDecl) : Recorded (declareType d) where
  log m := if assoc? d m.typeIds = none then [(m.bound, (declareType d m).1)] else []
  trace m := by
    cases found : assoc? d m.typeIds with
    | none => exact .allocate (.type d found) (.done _)
    | some id =>
      simp only [declareType, found]
      exact .done m

instance (d : ConstDecl) : Recorded (declareConstant d) where
  log m := if assoc? d m.constIds = none then [(m.bound, (declareConstant d m).1)] else []
  trace m := by
    cases found : assoc? d m.constIds with
    | none => exact .allocate (.constant d found) (.done _)
    | some id =>
      simp only [declareConstant, found]
      exact .done m

instance (d : VarDecl) : Recorded (declareVariable d) := .allocating fun _ => .var d

instance (type pointer : ResultId) : Recorded (load type pointer) :=
  .allocating fun _ => .value _ _ _ rfl

instance (type object composite : ResultId) (indices : List UInt32) :
    Recorded (compositeInsert type object composite indices) :=
  .allocating fun _ => .value _ _ _ rfl

instance (type first second : ResultId) (selectors : List UInt32) :
    Recorded (vectorShuffle type first second selectors) := .allocating fun _ => .value _ _ _ rfl

instance (type base : ResultId) (indices : List ResultId) :
    Recorded (accessChain type base indices) := .allocating fun _ => .value _ _ _ rfl

instance (value : UInt32) : Recorded (wordConstant value) := by
  delta wordConstant
  infer_instance

instance (value : Binary32) : Recorded (floatConstant value) := by
  delta floatConstant
  infer_instance

instance (type : ResultId) (parts : List ResultId) : Recorded (compositeConstant type parts) :=
  inferInstanceAs (Recorded (declareConstant _))

instance (capability : Capability) : Recorded (enableCapability capability) :=
  .writing fun _ => .capability capability

instance (addressing : AddressingModel) (memory : MemoryModel) :
    Recorded (setMemoryModel addressing memory) := .writing fun _ => .memoryModel addressing memory

instance (entry : EntryPoint) : Recorded (addEntryPoint entry) := .writing fun _ => .entryPoint entry

instance (i : Instruction) : Recorded (annotate i) := .writing fun _ => .decoration i

instance (i : Instruction) : Recorded (attachName i) := .writing fun _ => .name i

instance (resultType id functionType : ResultId) :
    Recorded (beginFunction resultType id functionType) := .writing fun _ => .code _ rfl

instance : Recorded endFunction := .writing fun _ => .code _ rfl

instance (id : ResultId) : Recorded (label id) := .writing fun _ => .code _ rfl

instance : Recorded returnVoid := .writing fun _ => .code _ rfl

instance (pointer object : ResultId) : Recorded (store pointer object) :=
  .writing fun _ => .code _ rfl

instance (target : ResultId) (decoration : Decoration) (operands : List Operand) :
    Recorded (decorate target decoration operands) := inferInstanceAs (Recorded (annotate _))

instance (target : ResultId) (member : UInt32) (builtIn : BuiltIn) :
    Recorded (decorateMember target member builtIn) := inferInstanceAs (Recorded (annotate _))

instance (target : ResultId) (text : String) : Recorded (name target text) :=
  inferInstanceAs (Recorded (attachName _))

instance (target : ResultId) (member : UInt32) (text : String) :
    Recorded (nameMember target member text) := inferInstanceAs (Recorded (attachName _))

class RecordedIf {ε α : Type} (x : Except ε (Build α)) where
  log : Module → List (UInt32 × ResultId)
  trace : ∀ action, x = .ok action → ∀ m, Module.Trace m (log m) (action m).2

namespace RecordedIf
variable {ε α β : Type}

instance (action : Build α) [recorded : Recorded action] :
    RecordedIf (.ok action : Except ε (Build α)) where
  log := recorded.log
  trace := by
    rintro _ ⟨rfl⟩
    exact recorded.trace

instance (action : Build α) [Recorded action] : RecordedIf (pure action : Except ε (Build α)) :=
  inferInstanceAs (RecordedIf (.ok action))

instance (x : Except ε β) (f : β → Except ε (Build α)) [each : ∀ b, RecordedIf (f b)] :
    RecordedIf (x >>= f) where
  log m :=
    match x with
    | .ok b => (each b).log m
    | .error _ => []
  trace action done m := by
    cases x with
    | error e => cases done
    | ok b => exact (each b).trace action done m

instance (x : Except ε (Build β)) (f : β → Build α) [first : RecordedIf x]
    [second : ∀ b, Recorded (f b)] : RecordedIf (x >>= fun action => pure (action >>= f)) where
  log m := first.log m ++
    match x with
    | .ok action => (second (action m).1).log (action m).2
    | .error _ => []
  trace action done m := by
    cases x with
    | error e => cases done
    | ok before =>
      obtain rfl := Except.ok.inj done
      exact (first.trace before rfl m).append ((second (before m).1).trace (before m).2)

instance (c : Prop) [Decidable c] (x y : Except ε (Build α)) [first : RecordedIf x]
    [second : RecordedIf y] : RecordedIf (if c then x else y) where
  log m := if c then first.log m else second.log m
  trace action done m := by
    split at done
    · rw [if_pos ‹_›]
      exact first.trace action done m
    · rw [if_neg ‹_›]
      exact second.trace action done m

end RecordedIf
end Build

namespace Edit
open Build (Recorded)

instance (action : Build Unit) [Recorded action] : Recorded (silently action) := by
  delta silently
  infer_instance

instance (e : Edit) : Recorded e.perform := by
  cases e <;> dsimp only [perform] <;> infer_instance

end Edit

namespace Module

theorem replay_trace (m : Module) (history : List Edit) : ∃ log, m.Trace log (m.replay history) := by
  induction history generalizing m with
  | nil => exact ⟨[], .done m⟩
  | cons e es ih =>
    obtain ⟨ys, rest⟩ := ih (m.edit e)
    exact ⟨_, (Build.Recorded.trace (x := e.perform) m).append rest⟩

theorem Reachable.keeps {P : Module → Prop} {m : Module} (reachable : m.Reachable) (fit : m.IdsFit)
    (start : P empty) (allocate : ∀ m id m', m.IdsFit → m.Allocates id m' → P m → P m')
    (write : ∀ m m', m.Writes m' → P m → P m') : P m := by
  obtain ⟨history, rfl⟩ := reachable
  obtain ⟨log, trace⟩ := replay_trace empty history
  exact trace.keeps allocate write fit start

end Module
end Shader
