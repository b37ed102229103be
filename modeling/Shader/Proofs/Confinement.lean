import Shader.Proofs.WellFormedness

/-!
Where ids occur in a module, and that building and emitting bring in no id that was neither passed
to them nor given out.
-/

namespace Shader
open Build (Ensures Monotone)

/-! Where ids occur. -/

namespace TypeDecl

def ids : TypeDecl → List ResultId
  | vector component _ => [component]
  | array element length => [element, length]
  | pointer pointee _ => [pointee]
  | function result params => result :: params
  | struct members => members
  | _ => []

theorem refs_operands (d : TypeDecl) : d.operands.filterMap Operand.ref? = d.ids := by
  cases d <;>
    simp [operands, ids, Operand.ref?, List.filterMap_map, List.filterMap_cons, Function.comp_def]

end TypeDecl

namespace ConstDecl

def ids : ConstDecl → List ResultId
  | composite type parts => type :: parts
  | d => [d.type]

theorem refs_operands (d : ConstDecl) :
    d.type :: d.operands.filterMap Operand.ref? = d.ids := by
  cases d <;> simp [type, operands, ids, Operand.ref?, List.filterMap_map, Function.comp_def]

end ConstDecl

def Instruction.ids (i : Instruction) : List ResultId :=
  i.result.toList ++ i.resultType.toList ++ i.operands.filterMap Operand.ref?

def Table.ids {α : Type} (inner : α → List ResultId) (t : Table α) : List ResultId :=
  t.entries.flatMap fun e => e.1 :: inner e.2

theorem Table.mem_ids_insert {α : Type} {inner : α → List ResultId} {t : Table α}
    {key id : ResultId} {value : α} (member : id ∈ (t.insert key value).ids inner) :
    id ∈ t.ids inner ∨ id = key ∨ id ∈ inner value := by
  obtain ⟨e, inserted, here⟩ := List.mem_flatMap.1 member
  rcases mem_insertEntry inserted with rfl | old
  · exact .inr (List.mem_cons.1 here)
  · exact .inl (List.mem_flatMap.2 ⟨e, old, here⟩)

namespace Module

def ids (m : Module) : List ResultId :=
  (m.names ++ m.annotations ++ m.globals ++ m.code).flatMap Instruction.ids ++
    m.entryPoints.flatMap (fun entry => entry.id :: entry.interfaces) ++
    m.typeIds.flatMap (fun e => e.2 :: e.1.ids) ++ m.constIds.flatMap (fun e => e.2 :: e.1.ids) ++
    m.types.ids TypeDecl.ids ++ m.constants.ids ConstDecl.ids ++
    m.vars.ids (fun d => [d.pointerType]) ++ m.resultTypes.ids fun type => [type]

def Given (m : Module) (ids : List ResultId) : Prop := ∀ id ∈ ids, id.index ≤ m.issued

def Bounded (m : Module) : Prop := m.Given m.ids

section Given
variable {m m' : Module}

theorem Given.mono {ids : List ResultId} (given : m.Given ids) (le : m.issued ≤ m'.issued) :
    m'.Given ids := fun id member => Nat.le_trans (given id member) le

theorem Given.subset {ids more : List ResultId} (given : m.Given more) (sub : ids ⊆ more) :
    m.Given ids := fun id member => given id (sub member)

@[simp] theorem given_nil : m.Given [] := by simp [Given]

@[simp] theorem given_cons {id : ResultId} {ids : List ResultId} :
    m.Given (id :: ids) ↔ id.index ≤ m.issued ∧ m.Given ids := by simp [Given]

theorem given_freshId (fit : m.IdsFit) (issued : m'.issued = m.issued + 1) :
    m'.Given [m.freshId] := by
  simp only [Given, List.mem_singleton, forall_eq, issued, index_freshId fit, Nat.le_refl]

/-- A change that brings in no ids but the next one and some that were given out. -/
theorem Bounded.change {args : List ResultId} (bounded : m.Bounded) (given : m.Given args)
    (fit : m.IdsFit) (issued : m'.issued = m.issued + 1)
    (ids : ∀ id ∈ m'.ids, id ∈ m.ids ∨ id = m.freshId ∨ id ∈ args) : m'.Bounded := by
  intro id member
  rw [issued]
  rcases ids id member with old | rfl | passed
  · have := bounded id old
    omega
  · exact Nat.le_of_eq (index_freshId fit)
  · have := given id passed
    omega

theorem Bounded.write {args : List ResultId} (bounded : m.Bounded) (given : m.Given args)
    (issued : m'.issued = m.issued) (ids : ∀ id ∈ m'.ids, id ∈ m.ids ∨ id ∈ args) :
    m'.Bounded := by
  intro id member
  rw [issued]
  rcases ids id member with old | passed
  · exact bounded id old
  · exact given id passed

theorem mem_ids_addType {d : TypeDecl} {id : ResultId} (member : id ∈ (m.addType d).ids) :
    id ∈ m.ids ∨ id = m.freshId ∨ id ∈ d.ids := by
  have table : id ∈ (m.types.insert m.freshId d).ids TypeDecl.ids → _ := Table.mem_ids_insert
  have cache : id ∈ (if d.isShared then m.typeIds ++ [(d, m.freshId)] else m.typeIds).flatMap
      (fun e => e.2 :: e.1.ids) → id ∈ m.typeIds.flatMap (fun e => e.2 :: e.1.ids) ∨
        id = m.freshId ∨ id ∈ d.ids := by
    split <;> simp
    grind
  have instruction : id ∈ (d.instruction m.freshId).ids → id = m.freshId ∨ id ∈ d.ids := by
    simp [Instruction.ids, TypeDecl.instruction, d.refs_operands]
  simp only [ids, addType, advance, List.flatMap_append, List.flatMap_cons, List.flatMap_nil,
    List.append_nil, List.mem_append] at member ⊢
  grind

theorem mem_ids_addConstant {d : ConstDecl} {id : ResultId} (member : id ∈ (m.addConstant d).ids) :
    id ∈ m.ids ∨ id = m.freshId ∨ id ∈ d.ids := by
  have table : id ∈ (m.constants.insert m.freshId d).ids ConstDecl.ids → _ := Table.mem_ids_insert
  have instruction : id ∈ (d.instruction m.freshId).ids → id = m.freshId ∨ id ∈ d.ids := by
    simp [Instruction.ids, ConstDecl.instruction, ← d.refs_operands]
  simp only [ids, addConstant, advance, List.flatMap_append, List.flatMap_cons, List.flatMap_nil,
    List.append_nil, List.mem_append, List.mem_cons] at member ⊢
  grind

theorem mem_ids_addVariable {d : VarDecl} {id : ResultId} (member : id ∈ (m.addVariable d).ids) :
    id ∈ m.ids ∨ id = m.freshId ∨ id ∈ [d.pointerType] := by
  have table : id ∈ (m.vars.insert m.freshId d).ids (fun d => [d.pointerType]) → _ :=
    Table.mem_ids_insert
  have instruction : id ∈ (d.instruction m.freshId).ids → id = m.freshId ∨ id ∈ [d.pointerType] := by
    simp [Instruction.ids, VarDecl.instruction, Operand.ref?]
  simp only [ids, addVariable, advance, List.flatMap_append, List.flatMap_cons, List.flatMap_nil,
    List.append_nil, List.mem_append] at member ⊢
  grind

theorem mem_ids_addValue {opcode : Opcode} {type : ResultId} {operands : List Operand}
    {id : ResultId} (member : id ∈ (m.addValue opcode type operands).ids) :
    id ∈ m.ids ∨ id = m.freshId ∨ id ∈ type :: operands.filterMap Operand.ref? := by
  have table : id ∈ (m.resultTypes.insert m.freshId type).ids (fun type => [type]) → _ :=
    Table.mem_ids_insert
  have instruction : id ∈ Instruction.ids ⟨opcode, some m.freshId, some type, operands⟩ →
      id = m.freshId ∨ id ∈ type :: operands.filterMap Operand.ref? := by
    simp [Instruction.ids]
  simp only [ids, addValue, advance, List.flatMap_append, List.flatMap_cons, List.flatMap_nil,
    List.append_nil, List.mem_append, List.mem_cons] at member ⊢
  grind

theorem mem_ids_addCode {i : Instruction} {id : ResultId} (member : id ∈ (m.addCode i).ids) :
    id ∈ m.ids ∨ id ∈ i.ids := by
  simp only [ids, addCode, List.flatMap_append, List.flatMap_cons, List.flatMap_nil,
    List.append_nil, List.mem_append] at member ⊢
  grind

theorem mem_ids_addName {i : Instruction} {id : ResultId} (member : id ∈ (m.addName i).ids) :
    id ∈ m.ids ∨ id ∈ i.ids := by
  simp only [ids, addName, List.flatMap_append, List.flatMap_cons, List.flatMap_nil,
    List.append_nil, List.mem_append] at member ⊢
  grind

theorem mem_ids_addAnnotation {i : Instruction} {id : ResultId}
    (member : id ∈ (m.addAnnotation i).ids) : id ∈ m.ids ∨ id ∈ i.ids := by
  simp only [ids, addAnnotation, List.flatMap_append, List.flatMap_cons, List.flatMap_nil,
    List.append_nil, List.mem_append] at member ⊢
  grind

theorem mem_ids_entryPoint {entry : EntryPoint} {id : ResultId}
    (member : id ∈ ids { m with entryPoints := m.entryPoints ++ [entry] }) :
    id ∈ m.ids ∨ id ∈ entry.id :: entry.interfaces := by
  simp only [ids, List.flatMap_append, List.flatMap_cons, List.flatMap_nil, List.append_nil,
    List.mem_append] at member ⊢
  grind

end Given
end Module

namespace Build
variable {α β : Type}

/-- The operation leaves no id in the module that was not given out, and answers none. -/
def Confines (x : Build α) (m : Module) (answer : α → List ResultId) : Prop :=
  x.Ensures m fun a m' => m'.Bounded ∧ m.issued ≤ m'.issued ∧ m'.Given (answer a)

section Confining
variable {m : Module} {answer : α → List ResultId} {later : β → List ResultId}

theorem Confines.pure {a : α} (bounded : m.Bounded) (given : m.Given (answer a)) :
    (Pure.pure a : Build α).Confines m answer := Ensures.pure ⟨bounded, Nat.le_refl _, given⟩

theorem Confines.bind {x : Build α} {f : α → Build β} (first : x.Confines m answer)
    (mono : ∀ a, Monotone (f a))
    (second : ∀ a m', m'.Bounded → m.issued ≤ m'.issued → m'.Given (answer a) →
      (f a).Confines m' later) : (x >>= f).Confines m later := by
  refine Ensures.bind first mono ?_
  rintro a m₁ ⟨bounded, le, given⟩
  refine (second a m₁ bounded le given).imp ?_
  rintro b m₂ ⟨boundedLater, leLater, givenLater⟩
  exact ⟨boundedLater, Nat.le_trans le leLater, givenLater⟩

theorem Confines.map {x : Build α} {f : α → β} (inner : x.Confines m fun a => later (f a)) :
    (f <$> x).Confines m later := inner

theorem mapM_confines {f : α → Build β} [∀ a, Monotone (f a)] {args : List ResultId}
    (each : ∀ a m, m.Bounded → m.Given args → (f a).Confines m later) (xs : List α)
    (bounded : m.Bounded) (given : m.Given args) :
    (xs.mapM f).Confines m fun ys => ys.flatMap later := by
  induction xs generalizing m with
  | nil => exact .pure bounded Module.given_nil
  | cons x xs ih =>
    rw [List.mapM_cons]
    refine (each x m bounded given).bind inferInstance ?_
    intro y m₁ bounded₁ le₁ here
    refine (ih bounded₁ (given.mono le₁)).bind inferInstance ?_
    intro ys m₂ bounded₂ le₂ others
    refine .pure bounded₂ ?_
    intro id member
    rw [List.flatMap_cons, List.mem_append] at member
    exact member.elim (here.mono le₂ id) (others id)

theorem forM_confines {f : α → Build PUnit} [∀ a, Monotone (f a)] {args : List ResultId}
    (each : ∀ a m, m.Bounded → m.Given args → (f a).Confines m fun _ => []) (xs : List α)
    (bounded : m.Bounded) (given : m.Given args) : (xs.forM f).Confines m fun _ => [] := by
  induction xs generalizing m with
  | nil => exact .pure bounded Module.given_nil
  | cons x xs ih =>
    refine Confines.bind (x := f x) (f := fun _ => xs.forM f) (each x m bounded given) inferInstance ?_
    intro _ m₁ bounded₁ le₁ _
    exact ih bounded₁ (given.mono le₁)

end Confining

/-! Building operations that are passed ids that have been given out. -/

section Primitives
variable {m : Module} (bounded : m.Bounded)
include bounded

theorem confines_of_fresh {x : Build ResultId} [mono : Monotone x] {args : List ResultId}
    (given : m.Given args) (answer : (x m).1 = m.freshId) (issued : (x m).2.issued = m.issued + 1)
    (ids : ∀ id ∈ (x m).2.ids, id ∈ m.ids ∨ id = m.freshId ∨ id ∈ args) :
    x.Confines m fun id => [id] := by
  intro fit
  have before : m.IdsFit := fit.of_le (mono.issued_le m)
  refine ⟨bounded.change given before issued ids, mono.issued_le m, ?_⟩
  rw [answer]
  exact Module.given_freshId before issued

theorem confines_of_write {x : Build Unit} {args : List ResultId} (given : m.Given args)
    (issued : (x m).2.issued = m.issued) (ids : ∀ id ∈ (x m).2.ids, id ∈ m.ids ∨ id ∈ args) :
    x.Confines m fun _ => [] := by
  intro fit
  exact ⟨bounded.write given issued ids, Nat.le_of_eq issued.symm, Module.given_nil⟩

theorem freshId_confines : freshId.Confines m fun id => [id] :=
  confines_of_fresh bounded Module.given_nil rfl rfl fun _ old => .inl old

theorem declareType_confines {d : TypeDecl} (given : m.Given d.ids) :
    (declareType d).Confines m fun id => [id] := by
  cases found : assoc? d m.typeIds with
  | none =>
    have miss : declareType d m = (m.freshId, m.addType d) := by simp [declareType, found]
    refine confines_of_fresh bounded given ?_ ?_ ?_ <;> rw [miss]
    · rfl
    · exact fun id => Module.mem_ids_addType
  | some id =>
    have hit : declareType d m = (id, m) := by simp [declareType, found]
    intro _
    rw [hit]
    refine ⟨bounded, Nat.le_refl _, Module.given_cons.2 ⟨bounded id ?_, Module.given_nil⟩⟩
    simp only [Module.ids, List.mem_append, List.mem_flatMap, List.mem_cons]
    have entry := mem_of_assoc? found
    exact .inl (.inl (.inl (.inl (.inl (.inr ⟨_, entry, .inl rfl⟩)))))

theorem declareConstant_confines {d : ConstDecl} (given : m.Given d.ids) :
    (declareConstant d).Confines m fun id => [id] := by
  cases found : assoc? d m.constIds with
  | none =>
    have miss : declareConstant d m = (m.freshId, m.addConstant d) := by
      simp [declareConstant, found]
    refine confines_of_fresh bounded given ?_ ?_ ?_ <;> rw [miss]
    · rfl
    · exact fun id => Module.mem_ids_addConstant
  | some id =>
    have hit : declareConstant d m = (id, m) := by simp [declareConstant, found]
    intro _
    rw [hit]
    refine ⟨bounded, Nat.le_refl _, Module.given_cons.2 ⟨bounded id ?_, Module.given_nil⟩⟩
    simp only [Module.ids, List.mem_append, List.mem_flatMap, List.mem_cons]
    have entry := mem_of_assoc? found
    exact .inl (.inl (.inl (.inl (.inr ⟨_, entry, .inl rfl⟩))))

theorem wordConstant_confines (value : UInt32) :
    (wordConstant value).Confines m fun id => [id] := by
  refine (declareType_confines bounded (d := .int 32 false) Module.given_nil).bind inferInstance ?_
  intro type m₁ bounded₁ le₁ given
  exact declareConstant_confines bounded₁ given

theorem floatConstant_confines (value : Binary32) :
    (floatConstant value).Confines m fun id => [id] := by
  refine (declareType_confines bounded (d := .float 32) Module.given_nil).bind inferInstance ?_
  intro type m₁ bounded₁ le₁ given
  exact declareConstant_confines bounded₁ given

theorem compositeConstant_confines {type : ResultId} {parts : List ResultId}
    (given : m.Given (type :: parts)) : (compositeConstant type parts).Confines m fun id => [id] :=
  declareConstant_confines bounded given

theorem declareVariable_confines {d : VarDecl} (given : m.Given [d.pointerType]) :
    (declareVariable d).Confines m fun id => [id] :=
  confines_of_fresh bounded given rfl rfl fun _ => Module.mem_ids_addVariable

theorem emitValue_confines (opcode : Opcode) {type : ResultId} {operands : List Operand}
    (given : m.Given (type :: operands.filterMap Operand.ref?)) :
    (emitValue opcode type operands).Confines m fun id => [id] :=
  confines_of_fresh bounded given rfl rfl fun _ => Module.mem_ids_addValue

theorem load_confines {type pointer : ResultId} (given : m.Given [type, pointer]) :
    (load type pointer).Confines m fun id => [id] := emitValue_confines bounded _ given

theorem compositeInsert_confines {type object composite : ResultId}
    (given : m.Given [type, object, composite]) (indices : List UInt32) :
    (compositeInsert type object composite indices).Confines m fun id => [id] := by
  refine emitValue_confines bounded _ ?_
  simp only [List.filterMap_cons, Operand.ref?, Operand.refs_literals]
  exact given

theorem vectorShuffle_confines {type first second : ResultId}
    (given : m.Given [type, first, second]) (selectors : List UInt32) :
    (vectorShuffle type first second selectors).Confines m fun id => [id] := by
  refine emitValue_confines bounded _ ?_
  simp only [List.filterMap_cons, Operand.ref?, Operand.refs_literals]
  exact given

theorem accessChain_confines {type base : ResultId} {indices : List ResultId}
    (given : m.Given (type :: base :: indices)) :
    (accessChain type base indices).Confines m fun id => [id] := by
  refine emitValue_confines bounded _ ?_
  simp only [List.filterMap_cons, Operand.ref?, Operand.refs_refs]
  exact given

theorem emit_confines {i : Instruction} (given : m.Given i.ids) :
    (emit i).Confines m fun _ => [] :=
  confines_of_write bounded given rfl fun _ => Module.mem_ids_addCode

theorem attachName_confines {i : Instruction} (given : m.Given i.ids) :
    (attachName i).Confines m fun _ => [] :=
  confines_of_write bounded given rfl fun _ => Module.mem_ids_addName

theorem annotate_confines {i : Instruction} (given : m.Given i.ids) :
    (annotate i).Confines m fun _ => [] :=
  confines_of_write bounded given rfl fun _ => Module.mem_ids_addAnnotation

theorem name_confines {target : ResultId} (given : m.Given [target]) (text : String) :
    (name target text).Confines m fun _ => [] := attachName_confines bounded given

theorem nameMember_confines {target : ResultId} (given : m.Given [target]) (member : UInt32)
    (text : String) : (nameMember target member text).Confines m fun _ => [] :=
  attachName_confines bounded given

theorem decorate_confines {target : ResultId} (decoration : Decoration) (operands : List Operand)
    (given : m.Given (target :: operands.filterMap Operand.ref?)) :
    (decorate target decoration operands).Confines m fun _ => [] := annotate_confines bounded given

theorem decorateMember_confines {target : ResultId} (given : m.Given [target]) (member : UInt32)
    (builtIn : BuiltIn) : (decorateMember target member builtIn).Confines m fun _ => [] :=
  annotate_confines bounded given

theorem store_confines {pointer object : ResultId} (given : m.Given [pointer, object]) :
    (store pointer object).Confines m fun _ => [] := emit_confines bounded given

theorem addEntryPoint_confines (entry : EntryPoint)
    (given : m.Given (entry.id :: entry.interfaces)) :
    (addEntryPoint entry).Confines m fun _ => [] :=
  confines_of_write bounded given rfl fun _ => Module.mem_ids_entryPoint

theorem setMemoryModel_confines (addressing : AddressingModel) (memory : MemoryModel) :
    (setMemoryModel addressing memory).Confines m fun _ => [] :=
  confines_of_write bounded Module.given_nil rfl fun _ old => .inl old

theorem enableCapability_confines (capability : Capability) :
    (enableCapability capability).Confines m fun _ => [] := by
  refine confines_of_write bounded Module.given_nil ?_ ?_
  · show (m.addCapability capability).issued = m.issued
    unfold Module.addCapability
    split <;> rfl
  · show ∀ id ∈ (m.addCapability capability).ids, id ∈ m.ids ∨ id ∈ []
    unfold Module.addCapability
    split <;> exact fun id old => .inl old

end Primitives
end Build

namespace Edit
open Build

def args : Edit → List ResultId
  | addEntryPoint entry => entry.id :: entry.interfaces
  | declareType d => d.ids
  | compositeConstant type parts => type :: parts
  | declareVariable d => [d.pointerType]
  | beginFunction resultType id functionType => [id, resultType, functionType]
  | label id => [id]
  | load type pointer => [type, pointer]
  | store pointer object => [pointer, object]
  | compositeInsert type object composite _ => [type, object, composite]
  | vectorShuffle type first second _ => [type, first, second]
  | accessChain type base indices => type :: base :: indices
  | decorate target _ operands => target :: operands.filterMap Operand.ref?
  | decorateMember target _ _ => [target]
  | name target _ => [target]
  | nameMember target _ _ => [target]
  | _ => []

theorem silently_confines {m : Module} {action : Build Unit}
    (inner : action.Confines m fun _ => []) : (silently action).Confines m Option.toList :=
  inner.bind inferInstance fun _ _ bounded _ _ => .pure bounded Module.given_nil

theorem perform_confines {m : Module} (bounded : m.Bounded) {e : Edit} (given : m.Given e.args) :
    e.perform.Confines m Option.toList := by
  cases e with
  | freshId => exact .map (freshId_confines bounded)
  | enableCapability capability => exact silently_confines (enableCapability_confines bounded _)
  | setMemoryModel addressing memory => exact silently_confines (setMemoryModel_confines bounded _ _)
  | addEntryPoint entry => exact silently_confines (addEntryPoint_confines bounded entry given)
  | declareType d => exact .map (declareType_confines bounded given)
  | wordConstant value => exact .map (wordConstant_confines bounded value)
  | floatConstant value => exact .map (floatConstant_confines bounded value)
  | compositeConstant type parts =>
    exact .map (compositeConstant_confines bounded given)
  | declareVariable d => exact .map (declareVariable_confines bounded given)
  | beginFunction resultType id functionType => exact silently_confines (emit_confines bounded given)
  | endFunction => exact silently_confines (emit_confines bounded given)
  | label id => exact silently_confines (emit_confines bounded given)
  | returnVoid => exact silently_confines (emit_confines bounded given)
  | load type pointer => exact .map (load_confines bounded given)
  | store pointer object => exact silently_confines (store_confines bounded given)
  | compositeInsert type object composite indices =>
    exact .map (compositeInsert_confines bounded given indices)
  | vectorShuffle type first second selectors =>
    exact .map (vectorShuffle_confines bounded given selectors)
  | accessChain type base indices => exact .map (accessChain_confines bounded given)
  | decorate target decoration operands =>
    exact silently_confines (decorate_confines bounded decoration operands given)
  | decorateMember target member builtIn =>
    exact silently_confines (decorateMember_confines bounded given member builtIn)
  | name target text => exact silently_confines (name_confines bounded given text)
  | nameMember target member text =>
    exact silently_confines (nameMember_confines bounded given member text)

end Edit

/-! Emitting operations. -/

def Emitter.ids (e : Emitter) : List ResultId := e.entry :: e.temps.places.map Place.id

theorem Emitter.reply_confines {α : Type} {m : Module} {e : Emitter} {x : Build α}
    {answer : α → List ResultId} (given : m.Given e.ids) (inner : x.Confines m answer)
    (reply : α → Reply) :
    (x >>= fun a => pure (reply a, e)).Confines m fun answer => answer.2.ids := by
  refine inner.bind inferInstance ?_
  intro a m₁ bounded₁ le₁ _
  exact .pure bounded₁ (given.mono le₁)

section Emitting
variable {m : Module} (bounded : m.Bounded)
include bounded

theorem ScalarKind.declare_confines (kind : ScalarKind) :
    kind.declare.Confines m fun id => [id] := by
  have plain : kind.decl.ids = [] := by
    unfold decl
    split <;> rfl
  exact Build.declareType_confines bounded (plain ▸ Module.given_nil)

theorem LogicalType.declareVector_confines (t : LogicalType) :
    t.declareVector.Confines m fun id => [id] := by
  refine (ScalarKind.declare_confines bounded _).bind inferInstance ?_
  intro scalar m₁ bounded₁ le₁ given
  split
  · exact .pure bounded₁ given
  · exact Build.declareType_confines bounded₁ given

theorem LogicalType.declare_confines (t : LogicalType) :
    t.declare.Confines m fun id => [id] := by
  refine (declareVector_confines bounded t).bind inferInstance ?_
  intro vector m₁ bounded₁ le₁ vectorGiven
  split
  · refine (Build.wordConstant_confines bounded₁ t.elements).bind inferInstance ?_
    intro length m₂ bounded₂ le₂ lengthGiven
    have both : m₂.Given [vector, length] := by
      simp only [Module.given_cons, Module.given_nil, and_true] at vectorGiven lengthGiven ⊢
      omega
    exact Build.declareType_confines bounded₂ both
  · exact .pure bounded₁ vectorGiven

theorem PlaceType.declare_confines (t : PlaceType) : t.declare.Confines m fun id => [id] := by
  refine (LogicalType.declare_confines bounded t.value).bind inferInstance ?_
  intro value m₁ bounded₁ le₁ given
  exact Build.declareType_confines bounded₁ given

theorem Value.float_confines (x : Binary32) : (float x).Confines m fun v => [v.id] := by
  refine (Build.floatConstant_confines bounded x).bind inferInstance ?_
  intro id m₁ bounded₁ le₁ given
  exact .pure bounded₁ given

theorem Value.floatVector_confines (width : Width) (xs : List Binary32) :
    (floatVector width xs).Confines m fun v => [v.id] := by
  refine (LogicalType.declare_confines bounded _).bind inferInstance ?_
  intro type m₁ bounded₁ le₁ typeGiven
  have noArgs : m₁.Given [] := Module.given_nil
  refine (Build.mapM_confines (fun x m bounded _ => Build.floatConstant_confines bounded x) xs
    bounded₁ noArgs).bind inferInstance ?_
  intro lanes m₂ bounded₂ le₂ lanesGiven
  have parts : m₂.Given (type :: lanes) := by
    have stillGiven := typeGiven.mono le₂
    simp at stillGiven lanesGiven ⊢
    exact ⟨stillGiven, lanesGiven⟩
  refine (Build.compositeConstant_confines bounded₂ parts).bind inferInstance ?_
  intro id m₃ bounded₃ le₃ given
  exact .pure bounded₃ given

theorem Place.load_confines {p : Place} (given : m.Given [p.id]) :
    p.load.Confines m fun v => [v.id] := by
  refine (LogicalType.declare_confines bounded _).bind inferInstance ?_
  intro type m₁ bounded₁ le₁ typeGiven
  have used : m₁.Given [type, p.id] := by
    simp only [Module.given_cons, Module.given_nil, and_true] at given typeGiven ⊢
    omega
  refine (Build.load_confines bounded₁ used).bind inferInstance ?_
  intro id m₂ bounded₂ le₂ idGiven
  exact .pure bounded₂ idGiven

theorem Merge.emit_confines {dst src : Value} (given : m.Given [dst.id, src.id]) (plan : Merge) :
    (plan.emit dst src).Confines m fun v => [v.id] := by
  simp only [Module.given_cons, Module.given_nil, and_true] at given
  cases plan with
  | keep => exact .pure bounded (by simp [given])
  | replace => exact .pure bounded (by simp [given])
  | insert lane =>
    refine (LogicalType.declare_confines bounded _).bind inferInstance ?_
    intro type m₁ bounded₁ le₁ typeGiven
    have used : m₁.Given [type, src.id, dst.id] := by
      simp only [Module.given_cons, Module.given_nil, and_true] at typeGiven ⊢
      omega
    refine (Build.compositeInsert_confines bounded₁ used _).bind inferInstance ?_
    intro id m₂ bounded₂ le₂ idGiven
    exact .pure bounded₂ idGiven
  | shuffle selectors =>
    refine (LogicalType.declare_confines bounded _).bind inferInstance ?_
    intro type m₁ bounded₁ le₁ typeGiven
    have used : m₁.Given [type, dst.id, src.id] := by
      simp only [Module.given_cons, Module.given_nil, and_true] at typeGiven ⊢
      omega
    refine (Build.vectorShuffle_confines bounded₁ used selectors).bind inferInstance ?_
    intro id m₂ bounded₂ le₂ idGiven
    exact .pure bounded₂ idGiven

theorem Place.storeMerged_confines {p : Place} {value : Value}
    (given : m.Given [p.id, value.id]) (plan : Merge) :
    (p.storeMerged value plan).Confines m fun _ => [] := by
  simp only [Module.given_cons, Module.given_nil, and_true] at given
  refine (load_confines bounded (by simp [given])).bind inferInstance ?_
  intro current m₁ bounded₁ le₁ currentGiven
  have merging : m₁.Given [current.id, value.id] := by
    simp only [Module.given_cons, Module.given_nil, and_true] at currentGiven ⊢
    omega
  refine (Merge.emit_confines bounded₁ merging plan).bind inferInstance ?_
  intro merged m₂ bounded₂ le₂ mergedGiven
  have storing : m₂.Given [p.id, merged.id] := by
    simp only [Module.given_cons, Module.given_nil, and_true] at mergedGiven ⊢
    omega
  exact Build.store_confines bounded₂ storing

theorem Registers.declareOne_confines {type : ResultId} (given : m.Given [type]) (index : Nat) :
    (declareOne type index).Confines m fun p => [p.id] := by
  refine (Build.declareVariable_confines bounded (d := ⟨type, placeType.storage⟩) given).bind
    inferInstance ?_
  intro id m₁ bounded₁ le₁ idGiven
  refine (Build.name_confines bounded₁ idGiven _).bind inferInstance ?_
  intro _ m₂ bounded₂ le₂ _
  exact .pure bounded₂ (idGiven.mono le₂)

theorem Registers.reserve_confines {r : Registers} (given : m.Given (r.places.map Place.id)) (n : Nat) :
    (r.reserve n).Confines m fun r' => r'.places.map Place.id := by
  unfold reserve
  split
  · exact .pure bounded given
  · refine (PlaceType.declare_confines bounded placeType).bind inferInstance ?_
    intro type m₁ bounded₁ le₁ typeGiven
    refine (Build.mapM_confines (fun index m bounded given => declareOne_confines bounded given index)
      (r.missing n) bounded₁ typeGiven).bind inferInstance ?_
    intro fresh m₂ bounded₂ le₂ freshGiven
    refine .pure bounded₂ ?_
    intro id member
    rw [List.map_append, List.mem_append] at member
    rcases member with old | new
    · exact (given.mono (Nat.le_trans le₁ le₂)) id old
    · obtain ⟨p, there, rfl⟩ := List.mem_map.1 new
      exact freshGiven p.id (List.mem_flatMap.2 ⟨p, there, by simp⟩)

theorem VertexBlock.declare_confines : declare.Confines m fun id => [id] := by
  have noArgs : m.Given [] := Module.given_nil
  refine (Build.mapM_confines
    (fun member m bounded _ => LogicalType.declare_confines bounded (Member.type member)) Member.all
    bounded noArgs).bind inferInstance ?_
  intro members m₁ bounded₁ le₁ membersGiven
  have parts : m₁.Given (TypeDecl.struct members).ids := by
    simp at membersGiven
    exact membersGiven
  refine (Build.declareType_confines bounded₁ parts).bind inferInstance ?_
  intro block m₂ bounded₂ le₂ given
  refine (Build.forM_confines (fun member m bounded given =>
    Build.decorateMember_confines bounded given _ _) Member.all bounded₂ given).bind inferInstance ?_
  intro _ m₃ bounded₃ le₃ _
  have given₃ := given.mono le₃
  refine (Build.decorate_confines bounded₃ .block [] given₃).bind inferInstance ?_
  intro _ m₄ bounded₄ le₄ _
  have given₄ := given₃.mono le₄
  refine (Build.name_confines bounded₄ given₄ _).bind inferInstance ?_
  intro _ m₅ bounded₅ le₅ _
  have given₅ := given₄.mono le₅
  refine (Build.forM_confines (fun member m bounded given =>
    Build.nameMember_confines bounded given _ _) Member.all bounded₅ given₅).bind inferInstance ?_
  intro _ m₆ bounded₆ le₆ _
  exact .pure bounded₆ (given₅.mono le₆)

theorem VertexBlock.position_confines {block : ResultId} (given : m.Given [block]) :
    (position block).Confines m fun p => [p.id] := by
  refine (PlaceType.declare_confines bounded _).bind inferInstance ?_
  intro type m₁ bounded₁ le₁ typeGiven
  refine (Build.wordConstant_confines bounded₁ _).bind inferInstance ?_
  intro member m₂ bounded₂ le₂ memberGiven
  have used : m₂.Given [type, block, member] := by
    simp only [Module.given_cons, Module.given_nil, and_true] at given typeGiven memberGiven ⊢
    omega
  refine (Build.accessChain_confines bounded₂ used).bind inferInstance ?_
  intro id m₃ bounded₃ le₃ idGiven
  exact .pure bounded₃ idGiven

theorem Emitter.start_confines : Emitter.start.Confines m Emitter.ids := by
  refine (Build.enableCapability_confines bounded _).bind inferInstance ?_
  intro _ m₁ bounded₁ le₁ _
  refine (Build.setMemoryModel_confines bounded₁ _ _).bind inferInstance ?_
  intro _ m₂ bounded₂ le₂ _
  refine (Build.freshId_confines bounded₂).bind inferInstance ?_
  intro entry m₃ bounded₃ le₃ given
  exact .pure bounded₃ given

theorem VertexEmitter.declareOutput_confines : declareOutput.Confines m fun id => [id] := by
  refine (VertexBlock.declare_confines bounded).bind inferInstance ?_
  intro block m₁ bounded₁ le₁ blockGiven
  refine (Build.declareType_confines bounded₁ (d := .pointer block .output) blockGiven).bind
    inferInstance ?_
  intro pointer m₂ bounded₂ le₂ pointerGiven
  refine (Build.declareVariable_confines bounded₂ (d := ⟨pointer, .output⟩) pointerGiven).bind
    inferInstance ?_
  intro output m₃ bounded₃ le₃ given
  refine (Build.name_confines bounded₃ given _).bind inferInstance ?_
  intro _ m₄ bounded₄ le₄ _
  exact .pure bounded₄ (given.mono le₄)

theorem VertexEmitter.declareFunctionType_confines :
    declareFunctionType.Confines m fun types => [types.1, types.2] := by
  refine (Build.declareType_confines bounded (d := .void) Module.given_nil).bind inferInstance ?_
  intro void m₁ bounded₁ le₁ voidGiven
  refine (Build.declareType_confines bounded₁ (d := .function void []) voidGiven).bind
    inferInstance ?_
  intro type m₂ bounded₂ le₂ typeGiven
  refine .pure bounded₂ ?_
  simp only [Module.given_cons, Module.given_nil, and_true] at voidGiven typeGiven ⊢
  omega

theorem VertexEmitter.openFunction_confines {void entry type : ResultId}
    (given : m.Given [entry, void, type]) :
    (openFunction void entry type).Confines m fun _ => [] := by
  refine (Build.emit_confines bounded
    (i := ⟨.opFunction, some entry, some void, [.noControl, .ref type]⟩) given).bind inferInstance ?_
  intro _ m₁ bounded₁ le₁ _
  refine (Build.freshId_confines bounded₁).bind inferInstance ?_
  intro label m₂ bounded₂ le₂ labelGiven
  refine (Build.emit_confines bounded₂ (i := ⟨.opLabel, some label, none, []⟩) labelGiven).bind
    inferInstance ?_
  intro _ m₃ bounded₃ le₃ _
  exact .pure bounded₃ Module.given_nil

theorem VertexEmitter.start_confines : start.Confines m fun e => e.output :: e.toEmitter.ids := by
  rw [start_eq]
  refine (Emitter.start_confines bounded).bind inferInstance ?_
  intro emitter m₁ bounded₁ le₁ emitterGiven
  refine (declareOutput_confines bounded₁).bind inferInstance ?_
  intro output m₂ bounded₂ le₂ outputGiven
  refine (declareFunctionType_confines bounded₂).bind inferInstance ?_
  rintro ⟨void, type⟩ m₃ bounded₃ le₃ typesGiven
  have head : m₃.Given [emitter.entry, void, type] := by
    have entryGiven := emitterGiven emitter.entry (by simp [Emitter.ids])
    simp only [Module.given_cons, Module.given_nil, and_true] at typesGiven ⊢
    omega
  refine (openFunction_confines bounded₃ head).bind inferInstance ?_
  intro _ m₄ bounded₄ le₄ _
  refine .pure bounded₄ ?_
  have output₄ := outputGiven.mono (Nat.le_trans le₃ le₄)
  simp only [Module.given_cons, Module.given_nil, and_true] at output₄ ⊢
  exact ⟨output₄, emitterGiven.mono (Nat.le_trans le₂ (Nat.le_trans le₃ le₄))⟩

theorem VertexEmitter.finish_confines {e : VertexEmitter} (given : m.Given [e.entry, e.output]) :
    e.finish.Confines m fun _ => [] := by
  refine (Build.emit_confines bounded (i := ⟨.opReturn, none, none, []⟩) Module.given_nil).bind
    inferInstance ?_
  intro _ m₁ bounded₁ le₁ _
  refine (Build.emit_confines bounded₁ (i := ⟨.opFunctionEnd, none, none, []⟩) Module.given_nil).bind
    inferInstance ?_
  intro _ m₂ bounded₂ le₂ _
  have given₂ := given.mono (Nat.le_trans le₁ le₂)
  refine (Build.addEntryPoint_confines bounded₂ e.entryPoint given₂).bind inferInstance ?_
  intro _ m₃ bounded₃ le₃ _
  have entry₃ : m₃.Given [e.entry] := (given₂.mono le₃).subset (by simp)
  refine (Build.name_confines bounded₃ entry₃ _).bind inferInstance ?_
  intro _ m₄ bounded₄ le₄ _
  exact .pure bounded₄ Module.given_nil

namespace Emitter
variable {e : Emitter}

theorem perform_confines {d : Directive} (passed : m.Given d.refs) (given : m.Given e.ids)
    {action : Build (Reply × Emitter)} (done : e.perform d = .ok action) :
    action.Confines m fun answer => answer.2.ids := by
  cases performs_of_perform done with
  | scalarType kind => exact reply_confines given (kind.declare_confines bounded) _
  | valueType type => exact reply_confines given (type.declare_confines bounded) _
  | placeType type => exact reply_confines given (type.declare_confines bounded) _
  | float x => exact reply_confines given (Value.float_confines bounded x) _
  | oneFloat x => exact reply_confines given (Value.float_confines bounded x) _
  | floats width xs => exact reply_confines given (Value.floatVector_confines bounded width xs) _
  | reserve count =>
    have registers : m.Given (e.temps.places.map Place.id) := given.subset (List.subset_cons_self _ _)
    refine (Registers.reserve_confines bounded registers count).bind inferInstance ?_
    intro temps m₁ bounded₁ le₁ tempsGiven
    refine .pure bounded₁ ?_
    have entryGiven := given.mono le₁ e.entry (by simp [ids])
    exact Module.given_cons.2 ⟨entryGiven, tempsGiven⟩
  | register found => exact .pure bounded given
  | merge dst src mask plan =>
    exact reply_confines given (Merge.emit_confines bounded passed plan) _
  | load place => exact reply_confines given (Place.load_confines bounded passed) _
  | store place value mask =>
    exact reply_confines given (Build.store_confines bounded passed) fun _ => .silent
  | storeMerged place value mask plan =>
    exact reply_confines given (Place.storeMerged_confines bounded passed plan) fun _ => .silent
  | vertexBlock => exact reply_confines given (VertexBlock.declare_confines bounded) _
  | position block => exact reply_confines given (VertexBlock.position_confines bounded passed) _

end Emitter
end Emitting

end Shader
