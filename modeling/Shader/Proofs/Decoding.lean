import Shader.Proofs.Tracing

/-!
Reading declarations back from instructions. Main statement: in every module that can be built, the
tables say exactly what decoding the sections says, and the caches are the inverses of the tables.
-/

namespace Shader

theorem ResultId.nodup_of_increasing {ids : List ResultId} (increasing : ids.Pairwise (· < ·)) :
    ids.Nodup := by
  refine increasing.imp ?_
  intro a b less same
  rw [lt_iff, same] at less
  omega

def Operand.refs? (operands : List Operand) : Option (List ResultId) := operands.mapM Operand.ref?

theorem Operand.refs?_eq_some {operands : List Operand} {ids : List ResultId} :
    refs? operands = some ids ↔ operands = ids.map .ref := by
  induction operands generalizing ids with
  | nil =>
    cases ids <;> simp [refs?]
  | cons operand operands ih =>
    unfold refs? at ih ⊢
    rw [List.mapM_cons]
    cases ids with
    | nil => cases operand <;> simp [ref?, Option.bind_eq_some_iff]
    | cons id ids =>
      cases operand with
      | ref first =>
        simp [ref?, Option.bind_eq_some_iff, ih]
        exact and_comm
      | _ => simp [ref?]

def TypeDecl.decode : Opcode → List Operand → Option TypeDecl
  | .opTypeVoid, [] => some .void
  | .opTypeInt, [.literal width, .literal sign] =>
    if sign = 0 then some (.int width false)
    else if sign = 1 then some (.int width true) else none
  | .opTypeFloat, [.literal width] => some (.float width)
  | .opTypeVector, [.ref component, .literal count] => some (.vector component count)
  | .opTypeArray, [.ref element, .ref length] => some (.array element length)
  | .opTypePointer, [.storageClass storage, .ref pointee] => some (.pointer pointee storage)
  | .opTypeFunction, .ref result :: params => (Operand.refs? params).map (.function result)
  | .opTypeStruct, members => (Operand.refs? members).map .struct
  | _, _ => none

theorem TypeDecl.decode_eq_some {code : Opcode} {os : List Operand} {d : TypeDecl} :
    decode code os = some d ↔ code = d.opcode ∧ os = d.operands := by
  constructor
  · intro decoded
    unfold decode at decoded
    split at decoded
    case h_2 width sign =>
      split at decoded
      · rename_i zero
        cases decoded
        simp [opcode, operands, zero]
      · split at decoded
        · rename_i one
          cases decoded
          simp [opcode, operands, one]
        · cases decoded
    case h_7 result params =>
      obtain ⟨ids, refs, rfl⟩ := Option.map_eq_some_iff.1 decoded
      simp [opcode, operands, Operand.refs?_eq_some.1 refs]
    case h_8 members =>
      obtain ⟨ids, refs, rfl⟩ := Option.map_eq_some_iff.1 decoded
      simp [opcode, operands, Operand.refs?_eq_some.1 refs]
    case h_9 => cases decoded
    all_goals
      cases decoded
      simp [opcode, operands]
  · rintro ⟨rfl, rfl⟩
    cases d with
    | int width signed => cases signed <;> simp [decode, opcode, operands]
    | function result params =>
      have refs : Operand.refs? (params.map .ref) = some params := Operand.refs?_eq_some.2 rfl
      simp [decode, opcode, operands, refs]
    | struct members =>
      have refs : Operand.refs? (members.map .ref) = some members := Operand.refs?_eq_some.2 rfl
      simp [decode, opcode, operands, refs]
    | _ => rfl

def ConstDecl.decode (type : ResultId) : Opcode → List Operand → Option ConstDecl
  | .opConstant, [.literal value] => some (.word type value)
  | .opConstant, [.float value] => some (.float type value)
  | .opConstantComposite, parts => (Operand.refs? parts).map (.composite type)
  | _, _ => none

theorem ConstDecl.decode_eq_some {t : ResultId} {code : Opcode} {os : List Operand}
    {d : ConstDecl} :
    decode t code os = some d ↔ t = d.type ∧ code = d.opcode ∧ os = d.operands := by
  constructor
  · intro decoded
    unfold decode at decoded
    split at decoded
    case h_3 parts =>
      obtain ⟨ids, refs, rfl⟩ := Option.map_eq_some_iff.1 decoded
      simp [type, opcode, operands, Operand.refs?_eq_some.1 refs]
    case h_4 => cases decoded
    all_goals
      cases decoded
      simp [type, opcode, operands]
  · rintro ⟨rfl, rfl, rfl⟩
    cases d with
    | composite type parts =>
      have refs : Operand.refs? (parts.map .ref) = some parts := Operand.refs?_eq_some.2 rfl
      simp [decode, ConstDecl.type, opcode, operands, refs]
    | _ => rfl

/-- What tells constants apart when the kind of a number is left to its type: the type, with the bits
or the parts. -/
def ConstDecl.shape (d : ConstDecl) : ResultId × (UInt64 ⊕ List ResultId) :=
  (d.type, match d with
    | word _ value => .inl value.toUInt64
    | float _ value => .inl value.bits.toUInt64
    | composite _ parts => .inr parts)

namespace Instruction

def typeDecl? (i : Instruction) : Option TypeDecl := TypeDecl.decode i.opcode i.operands

def constDecl? (i : Instruction) : Option ConstDecl :=
  i.resultType.bind fun type => ConstDecl.decode type i.opcode i.operands

def varDecl? : Instruction → Option VarDecl
  | ⟨.opVariable, _, some type, [.storageClass storage]⟩ => some ⟨type, storage⟩
  | _ => none

theorem typeDecl?_eq_some {i : Instruction} {d : TypeDecl} :
    i.typeDecl? = some d ↔ i.opcode = d.opcode ∧ i.operands = d.operands := TypeDecl.decode_eq_some

theorem constDecl?_eq_some {i : Instruction} {d : ConstDecl} :
    i.constDecl? = some d ↔
      i.resultType = some d.type ∧ i.opcode = d.opcode ∧ i.operands = d.operands := by
  simp only [constDecl?, Option.bind_eq_some_iff, ConstDecl.decode_eq_some]
  constructor
  · rintro ⟨type, here, rfl, encoded⟩
    exact ⟨here, encoded⟩
  · rintro ⟨here, encoded⟩
    exact ⟨d.type, here, rfl, encoded⟩

theorem varDecl?_eq_some {i : Instruction} {d : VarDecl} :
    i.varDecl? = some d ↔ i.resultType = some d.pointerType ∧ i.opcode = .opVariable ∧
      i.operands = [.storageClass d.storage] := by
  constructor
  · intro decoded
    unfold varDecl? at decoded
    split at decoded
    · cases decoded
      simp
    · cases decoded
  · intro encoded
    cases i
    simp only at encoded
    obtain ⟨rfl, rfl, rfl⟩ := encoded
    rfl

section Encoded
variable (id : ResultId)

@[simp] theorem typeDecl?_type (d : TypeDecl) : (d.instruction id).typeDecl? = some d :=
  typeDecl?_eq_some.2 ⟨rfl, rfl⟩

@[simp] theorem typeDecl?_const (d : ConstDecl) : (d.instruction id).typeDecl? = none := by
  cases d <;> rfl

@[simp] theorem typeDecl?_var (d : VarDecl) : (d.instruction id).typeDecl? = none := rfl

@[simp] theorem constDecl?_type (d : TypeDecl) : (d.instruction id).constDecl? = none := rfl

@[simp] theorem constDecl?_const (d : ConstDecl) : (d.instruction id).constDecl? = some d :=
  constDecl?_eq_some.2 ⟨rfl, rfl, rfl⟩

@[simp] theorem constDecl?_var (d : VarDecl) : (d.instruction id).constDecl? = none := rfl

@[simp] theorem varDecl?_type (d : TypeDecl) : (d.instruction id).varDecl? = none := by
  cases d <;> rfl

@[simp] theorem varDecl?_const (d : ConstDecl) : (d.instruction id).varDecl? = none := by
  cases d <;> rfl

@[simp] theorem varDecl?_var (d : VarDecl) : (d.instruction id).varDecl? = some d :=
  varDecl?_eq_some.2 ⟨rfl, rfl, rfl⟩

end Encoded

theorem eq_of_result {is : List Instruction} (once : (results is).Nodup) {i j : Instruction}
    (first : i ∈ is) (second : j ∈ is) {id : ResultId} (here : i.result = some id)
    (there : j.result = some id) : i = j := by
  induction is with
  | nil => cases first
  | cons k is ih =>
    have head : ∀ l ∈ is, l.result = some id → k.result ≠ some id := by
      intro l later same clash
      simp only [results, List.filterMap_cons, clash, List.nodup_cons] at once
      exact once.1 (mem_results.2 ⟨l, later, same⟩)
    have tail : (results is).Nodup := once.sublist ((List.sublist_cons_self k is).filterMap _)
    rcases List.mem_cons.1 first with rfl | inTail <;> rcases List.mem_cons.1 second with rfl | inTail'
    · rfl
    · exact absurd here (head j inTail' there)
    · exact absurd there (head i inTail here)
    · exact ih tail inTail inTail'

end Instruction

namespace Module
open Instruction (results mem_results)

def declaration? (m : Module) (id : ResultId) : Option Instruction :=
  m.globals.find? fun i => i.result = some id

/-- The caches have no key twice, and the types of computed values are those that the code says. -/
structure Recorded (m : Module) : Prop where
  typeKeys : (m.typeIds.map Prod.fst).Nodup
  constKeys : (m.constIds.map Prod.fst).Nodup
  value : ∀ id type, m.resultType? id = some type ↔
    ∃ i ∈ m.computations, i.result = some id ∧ i.resultType = some type

theorem recorded_empty : empty.Recorded where
  typeKeys := .nil
  constKeys := .nil
  value := by
    intro id type
    constructor
    · intro known
      cases known
    · rintro ⟨i, member, -⟩
      cases member

theorem Recorded.of_same {m m' : Module} (recorded : m.Recorded) (types : m'.typeIds = m.typeIds)
    (constants : m'.constIds = m.constIds) (resultTypes : m'.resultTypes = m.resultTypes)
    (computations : m'.computations = m.computations) : m'.Recorded where
  typeKeys := types ▸ recorded.typeKeys
  constKeys := constants ▸ recorded.constKeys
  value := by
    intro id type
    rw [computations, ← recorded.value, resultType?, resultType?, resultTypes]

theorem Recorded.allocate {m m' : Module} {id : ResultId} (fit : m.IdsFit)
    (step : m.Allocates id m') (numbered : m.Numbered) (recorded : m.Recorded) : m'.Recorded := by
  obtain ⟨-, rfl | ⟨d, new, rfl⟩ | ⟨d, new, rfl⟩ | ⟨d, rfl⟩ |
    ⟨opcode, type, operands, computes, rfl⟩⟩ := step.cases
  · exact recorded.of_same rfl rfl rfl rfl
  · refine ⟨?_, recorded.constKeys, recorded.value⟩
    simp only [addType]
    split
    · exact nodup_keys_concat recorded.typeKeys new m.freshId
    · exact recorded.typeKeys
  · exact ⟨recorded.typeKeys, nodup_keys_concat recorded.constKeys new m.freshId, recorded.value⟩
  · exact recorded.of_same rfl rfl rfl rfl
  · refine ⟨recorded.typeKeys, recorded.constKeys, ?_⟩
    intro other t
    rw [resultType?_addValue, computations_addValue m type operands computes]
    by_cases new : other = m.freshId
    · have unseen : ∀ i ∈ m.computations, i.result ≠ some m.freshId := by
        intro i member same
        exact ne_freshId fit
          (numbered.computedGiven _ (mem_results.2 ⟨i, member, same⟩)) rfl
      subst new
      simp only [if_true, List.mem_append, List.mem_singleton]
      constructor
      · intro same
        exact ⟨⟨opcode, some m.freshId, some type, operands⟩, .inr rfl, rfl, same⟩
      · rintro ⟨i, old | rfl, here, same⟩
        · exact absurd here (unseen i old)
        · exact same
    · simp only [new, if_false, recorded.value, List.mem_append, List.mem_singleton]
      constructor
      · rintro ⟨i, member, known⟩
        exact ⟨i, .inl member, known⟩
      · rintro ⟨i, old | rfl, here, same⟩
        · exact ⟨i, old, here, same⟩
        · exact absurd (Option.some.inj here).symm new

theorem Recorded.write {m m' : Module} (step : m.Writes m') (recorded : m.Recorded) :
    m'.Recorded := by
  cases step with
  | capability capability =>
    unfold addCapability
    split
    · exact recorded
    · exact recorded.of_same rfl rfl rfl rfl
  | code i silent => exact recorded.of_same rfl rfl rfl (computations_addCode silent)
  | _ => exact recorded.of_same rfl rfl rfl rfl

theorem Reachable.numbered {m : Module} (reachable : m.Reachable) (fit : m.IdsFit) : m.Numbered :=
  reachable.keeps fit numbered_empty (fun _ _ _ fit step numbered => numbered.allocate fit step)
    fun _ _ step numbered => numbered.write step

theorem Reachable.recorded {m : Module} (reachable : m.Reachable) (fit : m.IdsFit) : m.Recorded := by
  have both : m.Numbered ∧ m.Recorded := by
    refine reachable.keeps (P := fun m => m.Numbered ∧ m.Recorded) fit
      ⟨numbered_empty, recorded_empty⟩ ?_ ?_
    · rintro m id m' fit step ⟨numbered, recorded⟩
      exact ⟨numbered.allocate fit step, recorded.allocate fit step numbered⟩
    · rintro m m' step ⟨numbered, recorded⟩
      exact ⟨numbered.write step, recorded.write step⟩
  exact both.2

/-! Tables and sections. -/

section Tables
variable {m : Module} {id : ResultId}

theorem Coherent.eq_of_declares (co : m.Coherent) {i j : Instruction} (member : i ∈ m.globals)
    (result : i.result = some id) (declares : m.Declares id j) : i = j :=
  Instruction.eq_of_result (ResultId.nodup_of_increasing co.increasing) member
    (co.declaration id j declares) result declares.result

theorem Coherent.declares_of_mem (co : m.Coherent) {i : Instruction} (member : i ∈ m.globals)
    (result : i.result = some id) : m.Declares id i := by
  obtain ⟨other, declares⟩ := co.declared i member
  have same := declares.result
  rw [result] at same
  obtain rfl := Option.some.inj same
  exact declares

theorem Coherent.typeDecl?_eq (co : m.Coherent) {i : Instruction} (member : i ∈ m.globals)
    (result : i.result = some id) : m.typeDecl? id = i.typeDecl? := by
  ext d
  constructor
  · intro known
    rw [co.eq_of_declares member result (.type known), Instruction.typeDecl?_type]
  · intro decoded
    cases co.declares_of_mem member result with
    | type known =>
      rw [Instruction.typeDecl?_type] at decoded
      rw [known, decoded]
    | constant known => simp at decoded
    | var known => simp at decoded

theorem Coherent.constDecl?_eq (co : m.Coherent) {i : Instruction} (member : i ∈ m.globals)
    (result : i.result = some id) : m.constDecl? id = i.constDecl? := by
  ext d
  constructor
  · intro known
    rw [co.eq_of_declares member result (.constant known), Instruction.constDecl?_const]
  · intro decoded
    cases co.declares_of_mem member result with
    | constant known =>
      rw [Instruction.constDecl?_const] at decoded
      rw [known, decoded]
    | type known => simp at decoded
    | var known => simp at decoded

theorem Coherent.varDecl?_eq (co : m.Coherent) {i : Instruction} (member : i ∈ m.globals)
    (result : i.result = some id) : m.varDecl? id = i.varDecl? := by
  ext d
  constructor
  · intro known
    rw [co.eq_of_declares member result (.var known), Instruction.varDecl?_var]
  · intro decoded
    cases co.declares_of_mem member result with
    | var known =>
      rw [Instruction.varDecl?_var] at decoded
      rw [known, decoded]
    | type known => simp at decoded
    | constant known => simp at decoded

theorem Coherent.exists_of_declares (co : m.Coherent) {i : Instruction} (declares : m.Declares id i) :
    ∃ j ∈ m.globals, j.result = some id := ⟨i, co.declaration id i declares, declares.result⟩

def knownIn (m : Module) (id : ResultId) : Nat :=
  [(m.typeDecl? id).isSome, (m.constDecl? id).isSome, (m.varDecl? id).isSome].count true

theorem Coherent.knownIn_eq_one (co : m.Coherent) {i : Instruction} (member : i ∈ m.globals)
    (result : i.result = some id) : m.knownIn id = 1 := by
  rw [knownIn, co.typeDecl?_eq member result, co.constDecl?_eq member result,
    co.varDecl?_eq member result]
  cases co.declares_of_mem member result <;> simp

theorem lookup_eq_decoding {α : Type} {lookup : ResultId → Option α}
    {decoding : Instruction → Option α}
    (found : ∀ i ∈ m.globals, ∀ id, i.result = some id → lookup id = decoding i)
    (declared : ∀ id d, lookup id = some d → ∃ i ∈ m.globals, i.result = some id) (id : ResultId) :
    lookup id = (m.declaration? id).bind decoding := by
  cases search : m.declaration? id with
  | none =>
    cases known : lookup id with
    | none => rfl
    | some d =>
      obtain ⟨i, member, result⟩ := declared id d known
      have absent := List.find?_eq_none.1 search i member
      simp [result] at absent
  | some i =>
    have result : i.result = some id := by simpa using List.find?_some search
    exact found i (List.mem_of_find?_eq_some search) id result

theorem lookup_iff {α : Type} {lookup : ResultId → Option α} {decoding : Instruction → Option α}
    (found : ∀ i ∈ m.globals, ∀ id, i.result = some id → lookup id = decoding i)
    (declared : ∀ id d, lookup id = some d → ∃ i ∈ m.globals, i.result = some id) (id : ResultId)
    (d : α) : lookup id = some d ↔ ∃ i ∈ m.globals, i.result = some id ∧ decoding i = some d := by
  constructor
  · intro known
    obtain ⟨i, member, result⟩ := declared id d known
    exact ⟨i, member, result, by rw [← found i member id result, known]⟩
  · rintro ⟨i, member, result, decoded⟩
    rw [found i member id result, decoded]

/-- Numbers of equal type and bits are the same number: the type says of which kind they are. -/
theorem eq_of_shape {d d' : ConstDecl} (number : m.HasNumberType d) (number' : m.HasNumberType d')
    (same : d.shape = d'.shape) : d = d' := by
  cases d with
  | word type value =>
    cases d' with
    | word type' value' =>
      simpa [ConstDecl.shape, ConstDecl.type, UInt32.toUInt64_inj] using same
    | float type' value' =>
      obtain rfl : type = type' := congrArg Prod.fst same
      have clash := number.symm.trans number'
      simp at clash
    | composite type' parts' => simp [ConstDecl.shape] at same
  | float type value =>
    cases d' with
    | word type' value' =>
      obtain rfl : type = type' := congrArg Prod.fst same
      have clash := number.symm.trans number'
      simp at clash
    | float type' value' =>
      cases value
      cases value'
      simpa [ConstDecl.shape, ConstDecl.type, UInt32.toUInt64_inj] using same
    | composite type' parts' => simp [ConstDecl.shape] at same
  | composite type parts =>
    cases d' with
    | composite type' parts' => simpa [ConstDecl.shape, ConstDecl.type] using same
    | _ => simp [ConstDecl.shape] at same

end Tables

/-- The tables and the caches hold what decoding the sections gives, and nothing else. -/
structure IsDecoding (m : Module) : Prop where
  type : ∀ id d, m.typeDecl? id = some d ↔
    ∃ i ∈ m.globals, i.result = some id ∧ i.opcode = d.opcode ∧ i.operands = d.operands
  constant : ∀ id d, m.constDecl? id = some d ↔
    ∃ i ∈ m.globals, i.result = some id ∧
      i.resultType = some d.type ∧ i.opcode = d.opcode ∧ i.operands = d.operands
  var : ∀ id d, m.varDecl? id = some d ↔
    ∃ i ∈ m.globals, i.result = some id ∧
      i.resultType = some d.pointerType ∧ i.opcode = .opVariable ∧
      i.operands = [.storageClass d.storage]
  value : ∀ id type, m.resultType? id = some type ↔
    ∃ i ∈ m.code, i.computes ∧ i.result = some id ∧ i.resultType = some type
  readType : ∀ id, m.typeDecl? id = (m.declaration? id).bind Instruction.typeDecl?
  readConstant : ∀ id, m.constDecl? id = (m.declaration? id).bind Instruction.constDecl?
  readVar : ∀ id, m.varDecl? id = (m.declaration? id).bind Instruction.varDecl?
  numberType : ∀ id d, m.constDecl? id = some d → m.HasNumberType d
  -- A cache that took numbers of both kinds by type and bits would find the same ids.
  shape : ∀ id id' d d', m.constDecl? id = some d → m.constDecl? id' = some d' →
    d.shape = d'.shape → id = id' ∧ d = d'
  accounted : ∀ i ∈ m.globals, ∃ id, i.result = some id ∧ m.knownIn id = 1
  once : (results (m.globals ++ m.computations)).Nodup
  typeCache : ∀ d id, (d, id) ∈ m.typeIds ↔ d.isShared ∧ m.typeDecl? id = some d
  typeKeys : (m.typeIds.map Prod.fst).Nodup
  constantCache : ∀ d id, (d, id) ∈ m.constIds ↔ m.constDecl? id = some d
  constantKeys : (m.constIds.map Prod.fst).Nodup
  isEmpty : m.isEmpty ↔ m = empty

theorem Numbered.results_nodup {m : Module} (numbered : m.Numbered) :
    (results (m.globals ++ m.computations)).Nodup := by
  rw [Instruction.results_append, List.nodup_append]
  refine ⟨ResultId.nodup_of_increasing numbered.declared,
    ResultId.nodup_of_increasing numbered.computed, ?_⟩
  intro a declared b computed same
  exact numbered.apart b computed (same ▸ declared)

theorem eq_empty_of_isEmpty {m : Module} (co : m.Coherent) (recorded : m.Recorded)
    (nothing : m.isEmpty) : m = empty := by
  simp only [isEmpty, decide_eq_true_eq] at nothing
  obtain ⟨next, capabilities, memoryModel, entryPoints, names, annotations, globals, code⟩ := nothing
  have issued : m.issued = 0 := by
    have count := toNat_bound co.fit
    rw [bound, next] at count
    simpa using count.symm
  have undeclared : ∀ id i, ¬m.Declares id i := by
    intro id i declares
    have member := co.declaration id i declares
    rw [globals] at member
    cases member
  have noType : ∀ id, m.typeDecl? id = none := fun id =>
    Option.eq_none_iff_forall_ne_some.2 fun d known => undeclared id _ (.type known)
  have noConstant : ∀ id, m.constDecl? id = none := fun id =>
    Option.eq_none_iff_forall_ne_some.2 fun d known => undeclared id _ (.constant known)
  have noVar : ∀ id, m.varDecl? id = none := fun id =>
    Option.eq_none_iff_forall_ne_some.2 fun d known => undeclared id _ (.var known)
  have noValue : ∀ id, m.resultType? id = none := by
    intro id
    refine Option.eq_none_iff_forall_ne_some.2 ?_
    intro type known
    obtain ⟨i, member, -⟩ := (recorded.value id type).1 known
    simp [computations, code] at member
  have noTypeId : m.typeIds = [] := by
    refine List.eq_nil_iff_forall_not_mem.2 ?_
    rintro ⟨d, id⟩ member
    have known := (co.sharedType d id).1 ((assoc?_eq_some_iff_mem recorded.typeKeys).2 member)
    rw [noType] at known
    cases known.2
  have noConstId : m.constIds = [] := by
    refine List.eq_nil_iff_forall_not_mem.2 ?_
    rintro ⟨d, id⟩ member
    have known := (co.sharedConstant d id).1 ((assoc?_eq_some_iff_mem recorded.constKeys).2 member)
    rw [noConstant] at known
    cases known
  have types : m.types = ∅ := Table.ext_get? noType
  have constants : m.constants = ∅ := Table.ext_get? noConstant
  have vars : m.vars = ∅ := Table.ext_get? noVar
  have resultTypes : m.resultTypes = ∅ := Table.ext_get? noValue
  cases m
  simp_all [empty]

theorem Reachable.tables_decode_sections {m : Module} (reachable : m.Reachable) (fit : m.IdsFit) :
    m.IsDecoding := by
  have co := reachable.coherent fit
  have numbered := reachable.numbered fit
  have recorded := reachable.recorded fit
  have typeFound : ∀ i ∈ m.globals, ∀ id, i.result = some id → m.typeDecl? id = i.typeDecl? :=
    fun i member id result => co.typeDecl?_eq member result
  have typeDeclared : ∀ id d, m.typeDecl? id = some d → ∃ i ∈ m.globals, i.result = some id :=
    fun id d known => co.exists_of_declares (.type known)
  have constFound : ∀ i ∈ m.globals, ∀ id, i.result = some id → m.constDecl? id = i.constDecl? :=
    fun i member id result => co.constDecl?_eq member result
  have constDeclared : ∀ id d, m.constDecl? id = some d → ∃ i ∈ m.globals, i.result = some id :=
    fun id d known => co.exists_of_declares (.constant known)
  have varFound : ∀ i ∈ m.globals, ∀ id, i.result = some id → m.varDecl? id = i.varDecl? :=
    fun i member id result => co.varDecl?_eq member result
  have varDeclared : ∀ id d, m.varDecl? id = some d → ∃ i ∈ m.globals, i.result = some id :=
    fun id d known => co.exists_of_declares (.var known)
  constructor
  case type =>
    intro id d
    simp only [lookup_iff typeFound typeDeclared, Instruction.typeDecl?_eq_some]
  case constant =>
    intro id d
    simp only [lookup_iff constFound constDeclared, Instruction.constDecl?_eq_some]
  case var =>
    intro id d
    simp only [lookup_iff varFound varDeclared, Instruction.varDecl?_eq_some]
  case value =>
    intro id type
    simp only [recorded.value, computations, List.mem_filter, and_assoc]
  case readType => exact lookup_eq_decoding typeFound typeDeclared
  case readConstant => exact lookup_eq_decoding constFound constDeclared
  case readVar => exact lookup_eq_decoding varFound varDeclared
  case numberType => exact co.numberType
  case shape =>
    intro id id' d d' known known' same
    obtain rfl := eq_of_shape (co.numberType id d known) (co.numberType id' d' known') same
    have first := (co.sharedConstant d id).2 known
    rw [(co.sharedConstant d id').2 known'] at first
    exact ⟨(Option.some.inj first).symm, rfl⟩
  case accounted =>
    intro i member
    obtain ⟨id, declares⟩ := co.declared i member
    exact ⟨id, declares.result, co.knownIn_eq_one member declares.result⟩
  case once => exact numbered.results_nodup
  case typeCache =>
    intro d id
    rw [← assoc?_eq_some_iff_mem recorded.typeKeys, co.sharedType]
  case typeKeys => exact recorded.typeKeys
  case constantCache =>
    intro d id
    rw [← assoc?_eq_some_iff_mem recorded.constKeys, co.sharedConstant]
  case constantKeys => exact recorded.constKeys
  case isEmpty =>
    constructor
    · exact eq_empty_of_isEmpty co recorded
    · rintro rfl
      rfl

def equalBits : List Edit :=
  [.wordConstant 0x3f800000, .floatConstant ⟨0x3f800000⟩, .declareType (.struct [⟨1⟩, ⟨3⟩]),
    .declareType (.struct [⟨1⟩, ⟨3⟩]), .declareType (.pointer ⟨3⟩ .output),
    .declareVariable ⟨⟨7⟩, .output⟩, .load ⟨3⟩ ⟨8⟩, .wordConstant 0x3f800000]

theorem equalBits_decodes :
    (empty.replay equalBits).Reachable ∧ (empty.replay equalBits).IdsFit ∧
      (empty.replay equalBits).IsDecoding := by
  have fit : (empty.replay equalBits).IdsFit := by decide +kernel
  exact ⟨⟨equalBits, rfl⟩, fit, Reachable.tables_decode_sections ⟨equalBits, rfl⟩ fit⟩

end Module
end Shader
