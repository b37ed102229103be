import Shader.Proofs.Deduplication
import Shader.Proofs.Persistence

/-!
Logical types and their ids. The declarations behind an id tell which logical type it stands for, in
any module that can be made by building and emitting. Main statement: two requests for a type are
answered by one id exactly when they are for the same type, whatever happens in between, and a
request that was made before changes nothing.
-/

namespace Shader
open Build (Ensures Monotone Traced)

/-! Modules whose caches can be trusted. -/

namespace Module
variable {m m' : Module} {id : ResultId}

/-- The tables know about ids that were given out, and the caches find exactly what they hold. -/
structure Interned (m : Module) : Prop where
  keyed : m.Keyed
  sharedType : ∀ d id, assoc? d m.typeIds = some id ↔ d.isShared ∧ m.typeDecl? id = some d
  sharedConstant : ∀ d id, assoc? d m.constIds = some id ↔ m.constDecl? id = some d

theorem interned_empty : empty.Interned :=
  ⟨keyed_empty, coherent_empty.sharedType, coherent_empty.sharedConstant⟩

theorem Keyed.typeDecl?_freshId (keyed : m.Keyed) (fit : m.IdsFit) :
    m.typeDecl? m.freshId = none :=
  Option.eq_none_iff_forall_ne_some.2 fun _ known => ne_freshId fit (keyed.types.of_get? known) rfl

theorem Keyed.constDecl?_freshId (keyed : m.Keyed) (fit : m.IdsFit) :
    m.constDecl? m.freshId = none :=
  Option.eq_none_iff_forall_ne_some.2 fun _ known =>
    ne_freshId fit (keyed.constants.of_get? known) rfl

theorem Interned.allocate (fit : m.IdsFit) (step : m.Allocates id m') (interned : m.Interned) :
    m'.Interned := by
  have keyed := interned.keyed.allocate fit step
  obtain ⟨-, rfl | ⟨d, new, rfl⟩ | ⟨d, new, rfl⟩ | ⟨d, rfl⟩ | ⟨opcode, type, operands, -, rfl⟩⟩ :=
    step.cases
  · exact ⟨keyed, interned.sharedType, interned.sharedConstant⟩
  · exact ⟨keyed, sharedType_addType interned.sharedType (interned.keyed.typeDecl?_freshId fit) new,
      interned.sharedConstant⟩
  · exact ⟨keyed, interned.sharedType, sharedConstant_addConstant interned.sharedConstant
      (interned.keyed.constDecl?_freshId fit) new⟩
  · exact ⟨keyed, interned.sharedType, interned.sharedConstant⟩
  · exact ⟨keyed, interned.sharedType, interned.sharedConstant⟩

theorem Interned.write (step : m.Writes m') (interned : m.Interned) : m'.Interned := by
  have keyed := interned.keyed.write step
  cases step with
  | capability capability =>
    unfold addCapability at keyed ⊢
    split
    · exact interned
    · rename_i new
      rw [if_neg new] at keyed
      exact ⟨keyed, interned.sharedType, interned.sharedConstant⟩
  | _ => exact ⟨keyed, interned.sharedType, interned.sharedConstant⟩

structure Accumulates (m m' : Module) : Prop where
  interned : m'.Interned
  extension : m.Extends m'

theorem Accumulates.trans {m₁ : Module} (first : m.Accumulates m₁) (second : m₁.Accumulates m') :
    m.Accumulates m' := ⟨second.interned, first.extension.trans second.extension⟩

theorem Trace.accumulates {log : List (UInt32 × ResultId)} (trace : m.Trace log m')
    (fit : m'.IdsFit) (interned : m.Interned) : m.Accumulates m' where
  interned := trace.keeps (fun _ _ _ fit step interned => interned.allocate fit step)
    (fun _ _ step interned => interned.write step) fit interned
  extension := trace.extends fit

section Known
variable (interned : m.Interned)
include interned

theorem Interned.typeDecl {d : TypeDecl} (grown : m.Extends m') (known : m.typeDecl? id = some d) :
    m'.typeDecl? id = some d := by
  rw [grown.types id (interned.keyed.types.of_get? known), known]

theorem Interned.constDecl {d : ConstDecl} (grown : m.Extends m')
    (known : m.constDecl? id = some d) : m'.constDecl? id = some d := by
  rw [grown.constants id (interned.keyed.constants.of_get? known), known]

theorem Interned.declareType_hit {d : TypeDecl} (shared : d.isShared)
    (known : m.typeDecl? id = some d) : Build.declareType d m = (id, m) := by
  simp [Build.declareType, (interned.sharedType d id).2 ⟨shared, known⟩]

theorem Interned.declareConstant_hit {d : ConstDecl} (known : m.constDecl? id = some d) :
    Build.declareConstant d m = (id, m) := by
  simp [Build.declareConstant, (interned.sharedConstant d id).2 known]

theorem Interned.wordConstant_hit {type : ResultId} {value : UInt32}
    (word : m.typeDecl? type = some (.int 32 false))
    (known : m.constDecl? id = some (.word type value)) : Build.wordConstant value m = (id, m) :=
  (Build.bind_of_run (interned.declareType_hit rfl word) _).trans
    (interned.declareConstant_hit known)

end Known
end Module

namespace Build
variable {α : Type} {m : Module} (interned : m.Interned)
include interned

theorem Traced.accumulates (x : Build α) [traced : Traced x] :
    x.Ensures m fun _ m' => m.Accumulates m' := by
  intro fit
  obtain ⟨log, trace⟩ := traced.trace m
  exact trace.accumulates fit interned

theorem declareType_accumulates (d : TypeDecl) :
    (declareType d).Ensures m fun id m' => m.Accumulates m' ∧ m'.typeDecl? id = some d := by
  intro fit
  refine ⟨Traced.accumulates interned (declareType d) fit, ?_⟩
  unfold declareType
  split
  · rename_i id found
    exact ((interned.sharedType d id).1 found).2
  · simp

theorem declareConstant_accumulates (d : ConstDecl) :
    (declareConstant d).Ensures m fun id m' => m.Accumulates m' ∧ m'.constDecl? id = some d := by
  intro fit
  refine ⟨Traced.accumulates interned (declareConstant d) fit, ?_⟩
  unfold declareConstant
  split
  · rename_i id found
    exact (interned.sharedConstant d id).1 found
  · simp

theorem wordConstant_accumulates (value : UInt32) :
    (wordConstant value).Ensures m fun id m' => m.Accumulates m' ∧
      ∃ type, m'.typeDecl? type = some (.int 32 false) ∧
        m'.constDecl? id = some (.word type value) := by
  refine (declareType_accumulates interned _).bind inferInstance ?_
  rintro type m₁ ⟨first, word⟩
  refine (declareConstant_accumulates first.interned (.word type value)).imp ?_
  rintro id m₂ ⟨second, known⟩
  exact ⟨first.trans second, type, first.interned.typeDecl second.extension word, known⟩

end Build

/-! Reading a logical type back. -/

def ScalarKind.ofDecl? : TypeDecl → Option ScalarKind
  | .int width signed =>
    if width = 32 then some (if signed then .int32 else .uint32)
    else if width = 64 then some (if signed then .int64 else .uint64)
    else none
  | .float width =>
    if width = 32 then some .float32 else if width = 64 then some .float64 else none
  | _ => none

theorem ScalarKind.ofDecl?_eq_some {d : TypeDecl} {kind : ScalarKind} :
    ofDecl? d = some kind ↔ d = kind.decl := by
  constructor
  · intro read
    unfold ofDecl? at read
    split at read
    · rename_i width signed
      split at read
      · rename_i narrow
        subst narrow
        cases signed <;> cases read <;> rfl
      · split at read
        · rename_i wide
          subst wide
          cases signed <;> cases read <;> rfl
        · cases read
    · split at read
      · rename_i narrow
        subst narrow
        cases read
        rfl
      · split at read
        · rename_i wide
          subst wide
          cases read
          rfl
        · cases read
    · cases read
  · rintro rfl
    cases kind <;> rfl

def Width.ofVector? (count : UInt32) : Option Width :=
  if count = 2 then some .two
  else if count = 3 then some .three
  else if count = 4 then some .four
  else none

theorem Width.ofVector?_eq_some {count : UInt32} {width : Width} :
    ofVector? count = some width ↔ width ≠ .one ∧ count = width.word := by
  constructor
  · intro read
    unfold ofVector? at read
    split at read
    · cases read
      exact ⟨by decide, by assumption⟩
    · split at read
      · cases read
        exact ⟨by decide, by assumption⟩
      · split at read
        · cases read
          exact ⟨by decide, by assumption⟩
        · cases read
  · rintro ⟨several, rfl⟩
    cases width with
    | one => exact absurd rfl several
    | _ => rfl

namespace Module

def scalarKind? (m : Module) (id : ResultId) : Option ScalarKind :=
  (m.typeDecl? id).bind ScalarKind.ofDecl?

def lanes? (m : Module) (id : ResultId) : Option (ScalarKind × Width) :=
  match m.typeDecl? id with
  | some (.vector component count) => do
    return (← m.scalarKind? component, ← Width.ofVector? count)
  | _ => (m.scalarKind? id).map fun kind => (kind, .one)

def word? (m : Module) (id : ResultId) : Option UInt32 :=
  match m.constDecl? id with
  | some (.word type value) =>
    if m.typeDecl? type = some (.int 32 false) then some value else none
  | _ => none

/-- The logical type that an id stands for. An array has at least one element. -/
def logicalType? (m : Module) (id : ResultId) : Option LogicalType :=
  match m.typeDecl? id with
  | some (.array element length) => do
    let (scalar, width) ← m.lanes? element
    let elements ← m.word? length
    if elements = 0 then none else return ⟨scalar, width, elements⟩
  | _ => (m.lanes? id).map fun lanes => ⟨lanes.1, lanes.2, 0⟩

end Module

/-- What the id of a type can be asked for: values, or places that hold values. -/
inductive TypeRequest where
  | value (type : LogicalType)
  | place (type : PlaceType)
deriving DecidableEq, Repr

def TypeRequest.declare : TypeRequest → Build ResultId
  | value type => type.declare
  | place type => type.declare

def Module.request? (m : Module) (id : ResultId) : Option TypeRequest :=
  match m.typeDecl? id with
  | some (.pointer pointee storage) =>
    (m.logicalType? pointee).map fun type => .place ⟨type, storage⟩
  | _ => (m.logicalType? id).map .value

namespace Module
variable {m m' : Module} {id : ResultId}

theorem scalarKind?_eq_some {kind : ScalarKind} :
    m.scalarKind? id = some kind ↔ m.typeDecl? id = some kind.decl := by
  simp [scalarKind?, Option.bind_eq_some_iff, ScalarKind.ofDecl?_eq_some]

theorem scalarKind?_vector {component : ResultId} {count : UInt32}
    (known : m.typeDecl? id = some (.vector component count)) : m.scalarKind? id = none := by
  simp [scalarKind?, known, ScalarKind.ofDecl?]

theorem lanes?_array {element length : ResultId}
    (known : m.typeDecl? id = some (.array element length)) : m.lanes? id = none := by
  simp [lanes?, scalarKind?, known, ScalarKind.ofDecl?]

theorem lanes?_pointer {pointee : ResultId} {storage : StorageClass}
    (known : m.typeDecl? id = some (.pointer pointee storage)) : m.lanes? id = none := by
  simp [lanes?, scalarKind?, known, ScalarKind.ofDecl?]

theorem lanes?_eq_some {t : LogicalType} :
    m.lanes? id = some (t.scalar, t.width) ↔ t.IsVector m id := by
  unfold lanes? LogicalType.IsVector
  split
  · rename_i component count known
    simp only [Option.bind_eq_bind, Option.bind_eq_some_iff, scalarKind?_eq_some,
      Width.ofVector?_eq_some, Option.pure_def, Option.some.injEq, Prod.mk.injEq]
    constructor
    · rintro ⟨kind, scalar, width, ⟨several, rfl⟩, rfl, rfl⟩
      exact ⟨component, scalar, by rw [if_neg several, known]⟩
    · rintro ⟨scalar, kind, rest⟩
      split at rest
      · subst rest
        rw [← scalarKind?_eq_some, scalarKind?_vector known] at kind
        cases kind
      · rename_i several
        rw [known] at rest
        cases rest
        exact ⟨_, kind, _, ⟨several, rfl⟩, rfl, rfl⟩
  · rename_i unshaped
    simp only [Option.map_eq_some_iff, scalarKind?_eq_some, Prod.mk.injEq]
    constructor
    · rintro ⟨kind, known, rfl, one⟩
      exact ⟨id, known, by rw [if_pos one.symm]⟩
    · rintro ⟨scalar, kind, rest⟩
      split at rest
      · rename_i one
        subst rest
        exact ⟨_, kind, rfl, one.symm⟩
      · exact absurd rest (unshaped _ _)

theorem word?_eq_some {value : UInt32} : m.word? id = some value ↔
    ∃ type, m.typeDecl? type = some (.int 32 false) ∧ m.constDecl? id = some (.word type value) := by
  unfold word?
  split
  · rename_i type number known
    simp only [Option.ite_none_right_eq_some, Option.some.injEq, known, ConstDecl.word.injEq]
    constructor
    · rintro ⟨word, rfl⟩
      exact ⟨type, word, rfl, rfl⟩
    · rintro ⟨_, word, rfl, rfl⟩
      exact ⟨word, rfl⟩
  · rename_i other
    simp only [reduceCtorEq, false_iff, not_exists, not_and]
    intro type _
    exact other type value

/-- An array type is declared over the type of its elements and the constant for its length; any
other type is that of a scalar or a vector. -/
theorem logicalType?_eq_some {t : LogicalType} : m.logicalType? id = some t ↔
    if t.isArray then ∃ vector length, t.IsVector m vector ∧ m.word? length = some t.elements ∧
      m.typeDecl? id = some (.array vector length)
    else t.IsVector m id := by
  unfold logicalType?
  split
  · rename_i element length known
    simp only [Option.bind_eq_bind, Option.bind_eq_some_iff, Prod.exists]
    constructor
    · rintro ⟨scalar, width, lanes, elements, size, rest⟩
      split at rest
      · cases rest
      · rename_i nonempty
        cases rest
        rw [if_pos (by simpa [LogicalType.isArray] using nonempty)]
        exact ⟨element, length, lanes?_eq_some.1 lanes, size, known⟩
    · intro declared
      split at declared
      · rename_i array
        obtain ⟨vector, size, isVector, word, shape⟩ := declared
        rw [known] at shape
        cases shape
        refine ⟨_, _, lanes?_eq_some.2 isVector, _, word, ?_⟩
        rw [if_neg (by simpa [LogicalType.isArray] using array)]
        rfl
      · rw [← lanes?_eq_some, lanes?_array known] at declared
        cases declared
  · rename_i unshaped
    simp only [Option.map_eq_some_iff, Prod.exists]
    constructor
    · rintro ⟨scalar, width, lanes, rfl⟩
      exact lanes?_eq_some.1 lanes
    · intro declared
      split at declared
      · obtain ⟨vector, length, -, -, shape⟩ := declared
        exact absurd shape (unshaped _ _)
      · rename_i single
        have plain : t.elements = 0 := by simpa [LogicalType.isArray] using single
        refine ⟨t.scalar, t.width, lanes?_eq_some.2 declared, ?_⟩
        rw [← plain]

theorem request?_value {t : LogicalType} :
    m.request? id = some (.value t) ↔ m.logicalType? id = some t := by
  unfold request?
  split
  · rename_i pointee storage known
    constructor
    · intro read
      obtain ⟨_, -, clash⟩ := Option.map_eq_some_iff.1 read
      cases clash
    · intro read
      simp [logicalType?, known, lanes?_pointer known] at read
  · simp

theorem request?_place {t : PlaceType} : m.request? id = some (.place t) ↔
    ∃ value, m.logicalType? value = some t.value ∧
      m.typeDecl? id = some (.pointer value t.storage) := by
  unfold request?
  split
  · rename_i pointee storage known
    simp only [Option.map_eq_some_iff, known, TypeRequest.place.injEq]
    constructor
    · rintro ⟨type, read, rfl⟩
      exact ⟨pointee, read, rfl⟩
    · rintro ⟨value, read, same⟩
      cases same
      exact ⟨t.value, read, rfl⟩
  · rename_i other
    simp only [Option.map_eq_some_iff, reduceCtorEq, and_false, exists_false, false_iff, not_exists,
      not_and]
    intro value _ known
    exact other _ _ known

end Module

/-! What declaring a logical type does. -/

namespace LogicalType
variable {t : LogicalType} {m m' : Module} {id : ResultId} (interned : m.Interned)
include interned

theorem logicalType?_grows (grown : m.Extends m') (read : m.logicalType? id = some t) :
    m'.logicalType? id = some t := by
  have types : ∀ id d, m.typeDecl? id = some d → m'.typeDecl? id = some d :=
    fun _ _ known => interned.typeDecl grown known
  rw [Module.logicalType?_eq_some] at read ⊢
  split
  · rename_i array
    rw [if_pos array] at read
    obtain ⟨vector, length, isVector, size, shape⟩ := read
    obtain ⟨type, word, known⟩ := Module.word?_eq_some.1 size
    exact ⟨vector, length, isVector.mono types,
      Module.word?_eq_some.2 ⟨type, types _ _ word, interned.constDecl grown known⟩, types _ _ shape⟩
  · rename_i single
    rw [if_neg single] at read
    exact read.mono types

theorem declareVector_hit (isVector : t.IsVector m id) : t.declareVector m = (id, m) := by
  obtain ⟨scalar, known, rest⟩ := isVector
  have shared : t.scalar.decl.isShared := by cases t.scalar <;> rfl
  refine (Build.bind_of_run (interned.declareType_hit shared known) _).trans ?_
  split at rest
  · rename_i one
    rw [if_pos one, rest]
    rfl
  · rename_i several
    rw [if_neg several]
    exact interned.declareType_hit rfl rest

theorem declare_hit (read : m.logicalType? id = some t) : t.declare m = (id, m) := by
  rw [Module.logicalType?_eq_some] at read
  unfold declare
  split at read
  · rename_i array
    obtain ⟨vector, length, isVector, size, shape⟩ := read
    obtain ⟨type, word, known⟩ := Module.word?_eq_some.1 size
    refine (Build.bind_of_run (declareVector_hit interned isVector) _).trans ?_
    rw [if_pos array]
    refine (Build.bind_of_run (interned.wordConstant_hit word known) _).trans ?_
    exact interned.declareType_hit rfl shape
  · rename_i single
    refine (Build.bind_of_run (declareVector_hit interned read) _).trans ?_
    rw [if_neg single]
    rfl

theorem declareVector_reads (t : LogicalType) :
    t.declareVector.Ensures m fun id m' => m.Accumulates m' ∧ t.IsVector m' id := by
  refine (Build.declareType_accumulates interned t.scalar.decl).bind inferInstance ?_
  rintro scalar m₁ ⟨first, known⟩
  split
  · rename_i one
    exact .pure ⟨first, scalar, known, by rw [if_pos one]⟩
  · rename_i several
    refine (Build.declareType_accumulates first.interned _).imp ?_
    rintro id m₂ ⟨second, found⟩
    exact ⟨first.trans second, scalar, first.interned.typeDecl second.extension known, by
      rw [if_neg several, found]⟩

theorem declare_reads (t : LogicalType) :
    t.declare.Ensures m fun id m' => m.Accumulates m' ∧ m'.logicalType? id = some t := by
  refine (declareVector_reads interned t).bind inferInstance ?_
  rintro vector m₁ ⟨first, isVector⟩
  split
  · rename_i array
    refine (Build.wordConstant_accumulates first.interned t.elements).bind inferInstance ?_
    rintro length m₂ ⟨second, type, word, size⟩
    refine (Build.declareType_accumulates second.interned (.array vector length)).imp ?_
    rintro id m₃ ⟨third, shape⟩
    refine ⟨(first.trans second).trans third, ?_⟩
    rw [Module.logicalType?_eq_some, if_pos array]
    refine ⟨vector, length, ?_, ?_, shape⟩
    · exact isVector.mono fun _ _ known =>
        first.interned.typeDecl (second.trans third).extension known
    · exact Module.word?_eq_some.2 ⟨type, second.interned.typeDecl third.extension word,
        second.interned.constDecl third.extension size⟩
  · rename_i single
    exact .pure ⟨first, by rwa [Module.logicalType?_eq_some, if_neg single]⟩

end LogicalType

namespace TypeRequest
variable {r : TypeRequest} {m m' : Module} {id : ResultId}

instance (r : TypeRequest) : Monotone r.declare := by
  cases r <;> unfold declare <;> infer_instance

section
variable (interned : m.Interned)
include interned

theorem request?_grows (grown : m.Extends m') (read : m.request? id = some r) :
    m'.request? id = some r := by
  cases r with
  | value type =>
    rw [Module.request?_value] at read ⊢
    exact LogicalType.logicalType?_grows interned grown read
  | place type =>
    rw [Module.request?_place] at read ⊢
    obtain ⟨value, inner, known⟩ := read
    exact ⟨value, LogicalType.logicalType?_grows interned grown inner,
      interned.typeDecl grown known⟩

theorem declare_hit (read : m.request? id = some r) : r.declare m = (id, m) := by
  cases r with
  | value type => exact LogicalType.declare_hit interned (Module.request?_value.1 read)
  | place type =>
    obtain ⟨value, inner, known⟩ := Module.request?_place.1 read
    refine (Build.bind_of_run (LogicalType.declare_hit interned inner) _).trans ?_
    exact interned.declareType_hit rfl known

theorem declare_reads (r : TypeRequest) :
    r.declare.Ensures m fun id m' => m.Accumulates m' ∧ m'.request? id = some r := by
  cases r with
  | value type =>
    refine (LogicalType.declare_reads interned type).imp ?_
    rintro id m' ⟨grown, read⟩
    exact ⟨grown, Module.request?_value.2 read⟩
  | place type =>
    refine (LogicalType.declare_reads interned type.value).bind inferInstance ?_
    rintro value m₁ ⟨first, read⟩
    refine (Build.declareType_accumulates first.interned (.pointer value type.storage)).imp ?_
    rintro id m₂ ⟨second, known⟩
    refine ⟨first.trans second, Module.request?_place.2 ⟨value, ?_, known⟩⟩
    exact LogicalType.logicalType?_grows first.interned second.extension read

theorem id_unique {other : ResultId} (read : m.request? id = some r)
    (readOther : m.request? other = some r) : id = other :=
  congrArg Prod.fst ((declare_hit interned read).symm.trans (declare_hit interned readOther))

end
end TypeRequest

namespace Workshop

theorem performAll_accumulates {w w' : Workshop} {ops : List Operation}
    (done : w.performAll ops = some w') (fit : w'.module.IdsFit) (interned : w.module.Interned) :
    w.module.Accumulates w'.module := by
  have trace := performAll_trace done
  exact trace.accumulates fit interned

theorem reached_interned {ops : List Operation} {w : Workshop} (reached : performAll {} ops = some w)
    (fit : w.module.IdsFit) : w.module.Interned :=
  (performAll_accumulates reached fit Module.interned_empty).interned

/-- Whatever was done to a module before, the id of a type reads back as the type, and does so for
ever. Whatever is done between two requests, they are answered alike exactly if they ask for the same
type, and then the second leaves the module as it is. -/
theorem same_id_iff_same_type {before between : List Operation} {w w' : Workshop}
    (first second : TypeRequest) (reached : performAll {} before = some w)
    (went : performAll { w with module := (first.declare w.module).2 } between = some w')
    (fit : (second.declare w'.module).2.IdsFit) :
    (first.declare w.module).2.request? (first.declare w.module).1 = some first ∧
    (second.declare w'.module).2.request? (first.declare w.module).1 = some first ∧
    ((first.declare w.module).1 = (second.declare w'.module).1 ↔ first = second) ∧
    (first = second → (second.declare w'.module).2 = w'.module) := by
  have fit' : w'.module.IdsFit := fit.of_le (Monotone.issued_le (x := second.declare) w'.module)
  have fitFirst : (first.declare w.module).2.IdsFit := by
    have trace := performAll_trace went
    exact fit'.of_le (trace.extends fit').issued
  have fitStart : w.module.IdsFit :=
    fitFirst.of_le (Monotone.issued_le (x := first.declare) w.module)
  obtain ⟨grown, read⟩ := first.declare_reads (reached_interned reached fitStart) fitFirst
  have onwards := performAll_accumulates went fit' grown.interned
  obtain ⟨last, readLast⟩ := second.declare_reads onwards.interned fit
  have still := TypeRequest.request?_grows grown.interned onwards.extension read
  have stillLast := TypeRequest.request?_grows onwards.interned last.extension still
  refine ⟨read, stillLast, ⟨fun same => ?_, ?_⟩, ?_⟩
  · rw [same, readLast] at stillLast
    exact (Option.some.inj stillLast).symm
  · rintro rfl
    exact TypeRequest.id_unique last.interned stillLast readLast
  · rintro rfl
    exact congrArg Prod.snd (TypeRequest.declare_hit onwards.interned still)

def tangled : List Operation :=
  [.edit (.declareType (.vector ⟨7⟩ 4)), .edit (.declareType (.array ⟨3⟩ ⟨9⟩)), .start,
    .edit (.wordConstant 5), .edit (.declareType (.pointer ⟨4⟩ .privateStorage))]

def rebuilt : List Operation :=
  [.edit (.declareType (.float 64)), .direct (.valueType ⟨.float32, .three, 4⟩),
    .startStage .vertex, .direct (.reserve 2), .finish]

def fiveVectors (storage : StorageClass) : TypeRequest := .place ⟨⟨.float32, .three, 5⟩, storage⟩

theorem tangled_place_recovered :
    ∃ w w', performAll {} tangled = some w ∧
      performAll { w with module := ((fiveVectors .output).declare w.module).2 } rebuilt =
        some w' ∧
      (fiveVectors .output).declare w'.module =
        (((fiveVectors .output).declare w.module).1, w'.module) ∧
      ((fiveVectors .output).declare w.module).1 ≠
        ((fiveVectors .input).declare w'.module).1 := by
  have runs : (performAll {} tangled).any (fun w =>
      (performAll { w with module := ((fiveVectors .output).declare w.module).2 } rebuilt).any
        fun w' => decide ((fiveVectors .output).declare w'.module).2.IdsFit &&
          decide ((fiveVectors .input).declare w'.module).2.IdsFit) = true := by
    decide +kernel
  obtain ⟨w, reached, here⟩ := (Option.any_eq_true _ _).1 runs
  obtain ⟨w', went, fit⟩ := (Option.any_eq_true _ _).1 here
  rw [Bool.and_eq_true] at fit
  obtain ⟨-, -, same, still⟩ := same_id_iff_same_type _ _ reached went (of_decide_eq_true fit.1)
  obtain ⟨-, -, apart, -⟩ := same_id_iff_same_type _ _ reached went (of_decide_eq_true fit.2)
  refine ⟨w, w', reached, went, Prod.ext (same.2 rfl).symm (still rfl), fun clash => ?_⟩
  exact absurd (apart.1 clash) (by decide)

end Workshop
end Shader
