import Shader.Proofs.MaskedWrites
import Shader.Proofs.Numbering
import Shader.Proofs.TypeRegistry

/-!
Values whose ids have the type that they claim to have. Main statement: merging keeps all values well
typed, and what it returns is well typed unless a vector was put into the only lane of a scalar.
-/

namespace Shader
open Build (Ensures Monotone Traced)

def Module.typeOf? (m : Module) (id : ResultId) : Option ResultId :=
  ((m.constDecl? id).map ConstDecl.type).or (m.resultType? id)

/-- The module gives the value the type that it has for the value's logical type. -/
def Value.WellTyped (v : Value) (m : Module) : Prop :=
  m.typeOf? v.id = some (v.type.declare m).1 ∧ (v.type.declare m).2 = m

instance (v : Value) (m : Module) : Decidable (v.WellTyped m) :=
  inferInstanceAs (Decidable (_ ∧ _))

theorem Table.mem_ids_of_get? {α : Type} {inner : α → List ResultId} {t : Table α}
    {key id : ResultId} {value : α} (known : t.get? key = some value) (inside : id ∈ inner value) :
    id ∈ t.ids inner :=
  List.mem_flatMap.2 ⟨(key, value), mem_of_assoc? known, List.mem_cons_of_mem _ inside⟩

/-! Types of ids in a module that grows. -/

namespace Module
variable {m m' : Module} {id type : ResultId}

theorem Keyed.given_of_typeOf? (keyed : m.Keyed) (typed : m.typeOf? id = some type) :
    id.index ≤ m.issued := by
  rcases Option.or_eq_some_iff.1 typed with constant | ⟨-, computed⟩
  · obtain ⟨d, known, -⟩ := Option.map_eq_some_iff.1 constant
    exact keyed.constants.of_get? known
  · exact keyed.resultTypes.of_get? computed

theorem Extends.typeOf? (grown : m.Extends m') (given : id.index ≤ m.issued) :
    m'.typeOf? id = m.typeOf? id := by
  rw [Module.typeOf?, Module.typeOf?, grown.constants id given, grown.resultTypes id given]

theorem typeOf?_addValue (keyed : m.Keyed) (fit : m.IdsFit) (opcode : Opcode)
    (operands : List Operand) : (m.addValue opcode type operands).typeOf? m.freshId = some type := by
  have constant : (m.addValue opcode type operands).constDecl? m.freshId = none :=
    keyed.constDecl?_freshId fit
  have computed : (m.addValue opcode type operands).resultType? m.freshId = some type :=
    Table.get?_insert_self ..
  rw [typeOf?, constant, computed]
  rfl

/-! Where every id has been given out, what could be read later could be read before. -/

theorem Bounded.typeDecl {d : TypeDecl} (bounded : m.Bounded) (known : m.typeDecl? id = some d) :
    m.Given d.ids := by
  intro part inside
  have listed : part ∈ m.types.ids TypeDecl.ids := Table.mem_ids_of_get? known inside
  exact bounded part (by simp [ids, listed])

theorem Bounded.typeOf? (bounded : m.Bounded) (typed : m.typeOf? id = some type) :
    type.index ≤ m.issued := by
  rcases Option.or_eq_some_iff.1 typed with constant | ⟨-, computed⟩
  · obtain ⟨d, known, rfl⟩ := Option.map_eq_some_iff.1 constant
    have inside : d.type ∈ d.ids := by simp [← d.refs_operands]
    have listed : d.type ∈ m.constants.ids ConstDecl.ids := Table.mem_ids_of_get? known inside
    exact bounded d.type (by simp [ids, listed])
  · have listed : type ∈ m.resultTypes.ids fun type => [type] :=
      Table.mem_ids_of_get? computed List.mem_cons_self
    exact bounded type (by simp [ids, listed])

section Before
variable {t : LogicalType} (bounded : m.Bounded) (grown : m.Extends m')
  (given : id.index ≤ m.issued)
include bounded grown given

theorem isVector_before (isVector : t.IsVector m' id) : t.IsVector m id := by
  obtain ⟨scalar, kind, rest⟩ := isVector
  split at rest
  · rename_i one
    subst rest
    exact ⟨id, by rw [← grown.types id given, kind], by rw [if_pos one]⟩
  · rename_i several
    rw [grown.types id given] at rest
    have scalarGiven : scalar.index ≤ m.issued := bounded.typeDecl rest scalar (by simp [TypeDecl.ids])
    exact ⟨scalar, by rw [← grown.types scalar scalarGiven, kind], by rw [if_neg several, rest]⟩

theorem logicalType?_before (read : m'.logicalType? id = some t) : m.logicalType? id = some t := by
  rw [logicalType?_eq_some] at read ⊢
  split
  · rename_i array
    rw [if_pos array] at read
    obtain ⟨vector, length, isVector, size, shape⟩ := read
    rw [grown.types id given] at shape
    have parts : m.Given [vector, length] := bounded.typeDecl shape
    obtain ⟨word, isWord, constant⟩ := word?_eq_some.1 size
    rw [grown.constants length (parts length (by simp))] at constant
    have typed : m.typeOf? length = some word := by
      rw [Module.typeOf?, constant]
      rfl
    have wordGiven : word.index ≤ m.issued := bounded.typeOf? typed
    rw [grown.types word wordGiven] at isWord
    exact ⟨vector, length, isVector_before bounded grown (parts vector (by simp)) isVector,
      word?_eq_some.2 ⟨word, isWord, constant⟩, shape⟩
  · rename_i single
    rw [if_neg single] at read
    exact isVector_before bounded grown given read

end Before
end Module

/-! Values that are and stay well typed. -/

namespace Value
variable {m m' : Module} {v dst src : Value} (interned : m.Interned)
include interned

theorem wellTyped_iff_reads (fit : m.IdsFit) : v.WellTyped m ↔
    ∃ type, m.typeOf? v.id = some type ∧ m.logicalType? type = some v.type := by
  constructor
  · rintro ⟨typed, there⟩
    have reads := LogicalType.declare_reads interned v.type
    rw [Ensures, there] at reads
    exact ⟨_, typed, (reads fit).2⟩
  · rintro ⟨type, typed, read⟩
    rw [Value.WellTyped, LogicalType.declare_hit interned read]
    exact ⟨typed, rfl⟩

theorem WellTyped.grows (grown : m.Accumulates m') (fit : m'.IdsFit) (typed : v.WellTyped m) :
    v.WellTyped m' := by
  have fitHere : m.IdsFit := fit.of_le grown.extension.issued
  obtain ⟨type, known, read⟩ := (wellTyped_iff_reads interned fitHere).1 typed
  refine (wellTyped_iff_reads grown.interned fit).2 ⟨type, ?_, ?_⟩
  · rw [grown.extension.typeOf? (interned.keyed.given_of_typeOf? known), known]
  · exact LogicalType.logicalType?_grows interned grown.extension read

/-- Where no id is mentioned that has not been given out, a value is well typed if the module gives
it the type that is declared for its logical type. -/
theorem wellTyped_iff_of_bounded (bounded : m.Bounded) (fit : (v.type.declare m).2.IdsFit) :
    v.WellTyped m ↔ m.typeOf? v.id = some (v.type.declare m).1 := by
  constructor
  · exact And.left
  · intro typed
    obtain ⟨grown, read⟩ := LogicalType.declare_reads interned v.type fit
    have fitHere : m.IdsFit := fit.of_le grown.extension.issued
    exact (wellTyped_iff_reads interned fitHere).2 ⟨_, typed,
      Module.logicalType?_before bounded grown.extension (bounded.typeOf? typed) read⟩

theorem compute_wellTyped (t : LogicalType) (opcode : Opcode) (operands : List Operand)
    (computes : Instruction.computes ⟨opcode, none, none, []⟩) :
    (t.compute opcode operands).Ensures m fun v m' => v.type = t ∧ v.WellTyped m' := by
  refine (LogicalType.declare_reads interned t).bind inferInstance ?_
  rintro type m₁ ⟨declared, read⟩ fit
  have fit₁ : m₁.IdsFit := fit.of_le (Nat.le_succ _)
  have traced : Traced (Build.emitValue opcode type operands) :=
    .of_allocates fun _ => .value _ _ _ computes
  have emitted : m₁.Accumulates (m₁.addValue opcode type operands) :=
    Traced.accumulates declared.interned (Build.emitValue opcode type operands) fit
  refine ⟨rfl, (wellTyped_iff_reads emitted.interned fit).2 ⟨type, ?_, ?_⟩⟩
  · exact Module.typeOf?_addValue declared.interned.keyed fit₁ opcode operands
  · exact LogicalType.logicalType?_grows declared.interned emitted.extension read

theorem wellTyped_retyped_iff (fit : m.IdsFit) {t : LogicalType} (typed : src.WellTyped m) :
    (⟨t, src.id⟩ : Value).WellTyped m ↔ t = src.type := by
  constructor
  · intro retyped
    obtain ⟨type, known, read⟩ := (wellTyped_iff_reads interned fit).1 typed
    obtain ⟨other, knownOther, readOther⟩ := (wellTyped_iff_reads interned fit).1 retyped
    obtain rfl : type = other := Option.some.inj (known.symm.trans knownOther)
    exact Option.some.inj (readOther.symm.trans read)
  · rintro rfl
    exact typed

end Value

namespace Merge
variable {dst src : Width} {mask : LaneMask}

theorem plan_eq_replace : plan dst src mask = .ok replace ↔ dst = .one ∧ mask.test 0 := by
  by_cases one : dst = .one
  · cases test : mask.test 0 <;> simp [plan, one, test]
  · by_cases scalar : src = .one
    · rw [scalar, plan_scalar one]
      cases mask.first? <;> simp [one]
    · rw [plan_vectors one scalar]
      simp [one]

end Merge

/-- All that is returned is well typed, but for a source that is taken as it is though its type is
not that of the destination. -/
theorem Merge.emit_wellTyped_iff {m : Module} (interned : m.Interned) {dst src : Value}
    (dstTyped : dst.WellTyped m) (srcTyped : src.WellTyped m) (plan : Merge) :
    (plan.emit dst src).Ensures m fun v m' =>
      v.type = dst.type ∧ (v.WellTyped m' ↔ (plan = .replace → dst.type = src.type)) := by
  intro fit
  cases plan with
  | keep => exact ⟨rfl, iff_of_true dstTyped fun replaces => by cases replaces⟩
  | replace =>
    exact ⟨rfl, (Value.wellTyped_retyped_iff interned fit srcTyped).trans (imp_iff_right rfl).symm⟩
  | insert lane =>
    obtain ⟨type, typed⟩ := Value.compute_wellTyped interned dst.type .opCompositeInsert
      [.ref src.id, .ref dst.id, .literal (UInt32.ofNat lane)] rfl fit
    exact ⟨type, iff_of_true typed fun replaces => by cases replaces⟩
  | shuffle selectors =>
    obtain ⟨type, typed⟩ := Value.compute_wellTyped interned dst.type .opVectorShuffle
      (.ref dst.id :: .ref src.id :: selectors.map .literal) rfl fit
    exact ⟨type, iff_of_true typed fun replaces => by cases replaces⟩

namespace Workshop

/-- In any module that building and emitting can make: what is merged from two well-typed values of
one kind has the destination's type, and is well typed unless a vector was put into the only lane of
a scalar. All other values stay well typed. If no operation was passed an id at or above the bound, a
value is well typed as soon as the module gives it the type that is declared for its logical type. -/
theorem merged_wellTyped_iff {ops : List Operation} {w : Workshop} {dst src : Value}
    {mask : LaneMask} {action : Build Value} (reached : performAll {} ops = some w)
    (dstPlain : dst.type.isArray = false) (srcPlain : src.type.isArray = false)
    (kind : dst.type.scalar = src.type.scalar) (dstTyped : dst.WellTyped w.module)
    (srcTyped : src.WellTyped w.module) (merged : dst.merge src mask = .ok action)
    (fit : (action w.module).2.IdsFit) :
    (action w.module).1.type = dst.type ∧
    ((action w.module).1.WellTyped (action w.module).2 ↔
      ¬(dst.type.width = .one ∧ src.type.width ≠ .one ∧ mask.test 0)) ∧
    (∀ v : Value, v.WellTyped w.module → v.WellTyped (action w.module).2) ∧
    (passesBelow {} ops → ∀ v : Value, (v.type.declare w.module).2.IdsFit →
      (v.WellTyped w.module ↔ w.module.typeOf? v.id = some (v.type.declare w.module).1)) := by
  obtain ⟨plan, planned, rfl⟩ := Value.merge_eq_ok.1 merged
  have fitHere : w.module.IdsFit :=
    fit.of_le (Monotone.issued_le (x := plan.emit dst src) w.module)
  have interned := reached_interned reached fitHere
  have grown := Traced.accumulates interned (plan.emit dst src) fit
  obtain ⟨type, typed⟩ := Merge.emit_wellTyped_iff interned dstTyped srcTyped plan fit
  refine ⟨type, typed.trans ?_, fun v here => here.grows interned grown fit, ?_⟩
  · have replaces : plan = .replace ↔ dst.type.width = .one ∧ mask.test 0 := by
      rw [← Merge.plan_eq_replace, planned]
      simp
    have same : dst.type = src.type ↔ dst.type.width = src.type.width := by
      simp only [LogicalType.isArray, decide_eq_false_iff_not, not_not] at dstPlain srcPlain
      rw [LogicalType.mk.injEq]
      simp [kind, dstPlain, srcPlain]
    rw [replaces, same]
    constructor
    · rintro agree ⟨one, several, test⟩
      exact several ((agree ⟨one, test⟩).symm.trans one)
    · rintro only ⟨one, test⟩
      by_contra differ
      exact only ⟨one, fun other => differ (one.trans other.symm), test⟩
  · intro passes v fitType
    have bounded := performAll_bounded reached fitHere passes bounded_empty
    exact Value.wellTyped_iff_of_bounded interned bounded.module fitType

def numberAndPair : List Operation :=
  [.start, .direct (.float ⟨1065353216⟩), .direct (.floats [⟨1073741824⟩, ⟨1077936128⟩])]

def number : Value := ⟨.float, ⟨3⟩⟩

def pair : Value := ⟨⟨.float32, .two, 0⟩, ⟨7⟩⟩

theorem number_inserted_wellTyped : ∃ w action, performAll {} numberAndPair = some w ∧
    pair.merge number ⟨false, true, true, false⟩ = .ok action ∧ (action w.module).1.type = pair.type ∧
    (action w.module).1.WellTyped (action w.module).2 ∧ number.WellTyped (action w.module).2 := by
  have runs : (performAll {} numberAndPair).any (fun w =>
      decide (number.WellTyped w.module) && decide (pair.WellTyped w.module) &&
        decide ((Merge.insert 1).emit pair number w.module).2.IdsFit) = true := by
    decide +kernel
  obtain ⟨w, reached, here⟩ := (Option.any_eq_true _ _).1 runs
  simp only [Bool.and_eq_true, decide_eq_true_eq] at here
  obtain ⟨⟨numberTyped, pairTyped⟩, fit⟩ := here
  have merged : pair.merge number ⟨false, true, true, false⟩ =
      .ok ((Merge.insert 1).emit pair number) := rfl
  have kind : pair.type.scalar = number.type.scalar := rfl
  obtain ⟨type, typed, stays, -⟩ :=
    merged_wellTyped_iff reached rfl rfl kind pairTyped numberTyped merged fit
  exact ⟨w, _, reached, merged, type, typed.2 (by decide), stays number numberTyped⟩

/-- A pair that is put into the only lane of a number is then called a number. -/
theorem pair_called_number : ∃ w action, performAll {} numberAndPair = some w ∧
    number.WellTyped w.module ∧ pair.WellTyped w.module ∧
    number.merge pair ⟨true, false, false, false⟩ = .ok action ∧ (action w.module).2.IdsFit ∧
    ¬(action w.module).1.WellTyped (action w.module).2 := by
  have runs : (performAll {} numberAndPair).any (fun w =>
      decide (number.WellTyped w.module) && decide (pair.WellTyped w.module) &&
        decide w.module.IdsFit && !decide (Value.WellTyped ⟨.float, pair.id⟩ w.module)) = true := by
    decide +kernel
  obtain ⟨w, reached, here⟩ := (Option.any_eq_true _ _).1 runs
  simp only [Bool.and_eq_true, Bool.not_eq_true', decide_eq_true_eq, decide_eq_false_iff_not] at here
  obtain ⟨⟨⟨numberTyped, pairTyped⟩, fit⟩, untyped⟩ := here
  exact ⟨w, _, reached, numberTyped, pairTyped, rfl, fit, untyped⟩

end Workshop
end Shader
