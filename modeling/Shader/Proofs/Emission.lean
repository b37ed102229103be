import Shader.Emitter.Directive
import Shader.Proofs.Scoping

/-!
What each emitting operation adds to a module: the declarations that stand for logical types, and
the instructions that load, merge, store and point.
-/

namespace Shader
open Build (Ensures Monotone)
open Instruction (results)
open Shader.Module (Emits)

section Lists
variable {α β : Type} {m : Module}

theorem Build.forM_quiet {f : α → Build PUnit} [∀ a, Monotone (f a)]
    (each : ∀ m a, m.Sound → (f a).Ensures m fun _ m' => m.Quiet m') (xs : List α)
    (sound : m.Sound) : (xs.forM f).Ensures m fun _ m' => m.Quiet m' := by
  induction xs generalizing m with
  | nil => exact .pure (.refl sound)
  | cons x xs ih =>
    refine Ensures.bind (x := f x) (f := fun _ => xs.forM f) (each m x sound) inferInstance ?_
    intro _ m₁ first
    exact (ih first.sound).imp fun _ _ second => first.trans second

/-- What holds of each answer and keeps holding while a module grows quietly holds of all of them in
the end. -/
theorem Build.mapM_quiet {f : α → Build β} [∀ a, Monotone (f a)] {P : Module → α → β → Prop}
    (each : ∀ m a, m.Sound → (f a).Ensures m fun b m' => m.Quiet m' ∧ P m' a b)
    (kept : ∀ m m' a b, m.Sound → m.Quiet m' → P m a b → P m' a b) (xs : List α)
    (sound : m.Sound) :
    (xs.mapM f).Ensures m fun ys m' => m.Quiet m' ∧ List.Forall₂ (P m') xs ys := by
  induction xs generalizing m with
  | nil => exact .pure ⟨.refl sound, .nil⟩
  | cons x xs ih =>
    rw [List.mapM_cons]
    refine (each m x sound).bind inferInstance ?_
    rintro y m₁ ⟨first, here⟩
    refine (ih first.sound).bind inferInstance ?_
    rintro ys m₂ ⟨second, others⟩
    exact .pure ⟨first.trans second, .cons (kept m₁ m₂ x y first.sound second here) others⟩

end Lists

/-! Logical types and the declarations that stand for them. -/

instance (kind : ScalarKind) : Monotone kind.declare := inferInstanceAs (Monotone (Build.declareType _))

instance (t : LogicalType) : Monotone t.declareVector := by
  unfold LogicalType.declareVector
  infer_instance

instance (t : LogicalType) : Monotone t.declare := by
  unfold LogicalType.declare
  infer_instance

instance (t : PlaceType) : Monotone t.declare := by
  unfold PlaceType.declare
  infer_instance

theorem ScalarKind.declare_quiet (kind : ScalarKind) {m : Module} (sound : m.Sound) :
    kind.declare.Ensures m fun id m' => m.Quiet m' ∧ m'.typeDecl? id = some kind.decl := by
  have plain : kind.decl.operands.filterMap Operand.ref? ⊆ results m.globals := by
    cases kind <;> exact List.nil_subset _
  exact Build.declareType_quiet sound plain

namespace LogicalType

/-- The id stands for the type of the lanes, whether or not there is an array of them. -/
def IsVector (t : LogicalType) (m : Module) (id : ResultId) : Prop :=
  ∃ scalar, m.typeDecl? scalar = some t.scalar.decl ∧
    if t.width = .one then id = scalar else m.typeDecl? id = some (.vector scalar t.width.word)

def IsDeclared (t : LogicalType) (m : Module) (id : ResultId) : Prop :=
  if t.isArray then ∃ vector length type, t.IsVector m vector ∧
    m.constDecl? length = some (.word type t.elements) ∧ m.typeDecl? id = some (.array vector length)
  else t.IsVector m id

def zeroVector (t : LogicalType) : Contents :=
  if t.width = .one then .scalar 0 else .composite (List.replicate t.width.count (.scalar 0))

def zero (t : LogicalType) : Contents :=
  if t.isArray then .composite (List.replicate t.elements.toNat t.zeroVector) else t.zeroVector

variable {t : LogicalType} {m m' : Module} {id : ResultId}

theorem IsVector.mono (isVector : t.IsVector m id)
    (types : ∀ id d, m.typeDecl? id = some d → m'.typeDecl? id = some d) : t.IsVector m' id := by
  obtain ⟨scalar, known, rest⟩ := isVector
  refine ⟨scalar, types _ _ known, ?_⟩
  split
  · rename_i one
    rwa [if_pos one] at rest
  · rename_i more
    rw [if_neg more] at rest
    exact types _ _ rest

theorem IsVector.grows (isVector : t.IsVector m id) (sound : m.Sound) (grown : m.Extends m') :
    t.IsVector m' id :=
  isVector.mono fun _ _ known => grown.typeDecl sound.coherent known

theorem IsDeclared.grows (declared : t.IsDeclared m id) (sound : m.Sound) (grown : m.Extends m') :
    t.IsDeclared m' id := by
  unfold IsDeclared at declared ⊢
  split
  · rename_i array
    rw [if_pos array] at declared
    obtain ⟨vector, length, type, isVector, size, known⟩ := declared
    exact ⟨vector, length, type, isVector.grows sound grown, grown.constDecl sound.coherent size,
      grown.typeDecl sound.coherent known⟩
  · rename_i single
    rw [if_neg single] at declared
    exact declared.grows sound grown

theorem IsVector.mem_results (isVector : t.IsVector m id) (sound : m.Sound) :
    id ∈ results m.globals := by
  obtain ⟨scalar, known, rest⟩ := isVector
  split at rest
  · exact rest ▸ sound.coherent.mem_results_of_declares (.type known)
  · exact sound.coherent.mem_results_of_declares (.type rest)

theorem IsDeclared.mem_results (declared : t.IsDeclared m id) (sound : m.Sound) :
    id ∈ results m.globals := by
  unfold IsDeclared at declared
  split at declared
  · obtain ⟨vector, length, type, -, -, known⟩ := declared
    exact sound.coherent.mem_results_of_declares (.type known)
  · exact declared.mem_results sound

theorem IsVector.zeroWithin (isVector : t.IsVector m id) (sound : m.Sound) {depth : Nat}
    (below : id.index < depth) : m.zeroWithin depth id = .ok t.zeroVector := by
  obtain ⟨scalar, known, rest⟩ := isVector
  have number : ∀ n, m.zeroWithin (n + 1) scalar = .ok (.scalar 0) := by
    intro n
    unfold Module.zeroWithin
    rw [known]
    cases t.scalar <;> rfl
  obtain ⟨n, rfl⟩ : ∃ n, depth = n + 1 := ⟨depth - 1, by omega⟩
  unfold zeroVector
  split at rest
  · rename_i one
    rw [if_pos one, rest]
    exact number n
  · rename_i more
    rw [if_neg more]
    have mentioned : scalar ∈ ((TypeDecl.vector scalar t.width.word).instruction id).mentions := by
      simp [TypeDecl.instruction, Instruction.mentions, TypeDecl.operands, Operand.ref?]
    have smaller := sound.index_lt (.type rest) mentioned
    obtain ⟨k, rfl⟩ : ∃ k, n = k + 1 := ⟨n - 1, by omega⟩
    unfold Module.zeroWithin
    rw [rest]
    refine bind_eq_ok.2 ⟨_, number k, ?_⟩
    cases t.width <;> rfl

theorem IsDeclared.zeroWithin (declared : t.IsDeclared m id) (sound : m.Sound) {depth : Nat}
    (below : id.index < depth) : m.zeroWithin depth id = .ok t.zero := by
  unfold IsDeclared at declared
  unfold zero
  split at declared
  · rename_i array
    rw [if_pos array]
    obtain ⟨vector, length, type, isVector, size, known⟩ := declared
    have mentioned : vector ∈ ((TypeDecl.array vector length).instruction id).mentions := by
      simp [TypeDecl.instruction, Instruction.mentions, TypeDecl.operands, Operand.ref?]
    have smaller := sound.index_lt (.type known) mentioned
    obtain ⟨n, rfl⟩ : ∃ n, depth = n + 1 := ⟨depth - 1, by omega⟩
    unfold Module.zeroWithin
    simp only [known, size, Option.bind_some, ConstDecl.bits?]
    refine bind_eq_ok.2 ⟨_, isVector.zeroWithin sound (by omega), ?_⟩
    simp [pure, Except.pure]
  · rename_i single
    rw [if_neg single]
    exact declared.zeroWithin sound below

theorem IsDeclared.zero (declared : t.IsDeclared m id) (sound : m.Sound) :
    m.zero id = .ok t.zero := by
  refine declared.zeroWithin sound ?_
  rw [Module.toNat_bound sound.coherent.fit]
  exact Nat.lt_succ_of_le (sound.coherent.given id (declared.mem_results sound))

theorem declareVector_quiet (t : LogicalType) (sound : m.Sound) :
    t.declareVector.Ensures m fun id m' => m.Quiet m' ∧ t.IsVector m' id := by
  refine (t.scalar.declare_quiet sound).bind inferInstance ?_
  rintro scalar m₁ ⟨first, known⟩
  split
  · rename_i one
    exact .pure ⟨first, scalar, known, by rw [if_pos one]⟩
  · rename_i more
    have scalarKnown := first.sound.coherent.mem_results_of_declares (.type known)
    have inScope : (TypeDecl.vector scalar t.width.word).operands.filterMap Operand.ref? ⊆
        results m₁.globals := List.cons_subset.2 ⟨scalarKnown, List.nil_subset _⟩
    refine (Build.declareType_quiet first.sound inScope).imp ?_
    rintro id m₂ ⟨second, found⟩
    refine ⟨first.trans second, scalar, second.extension.typeDecl first.sound.coherent known, ?_⟩
    rw [if_neg more]
    exact found

theorem declare_quiet (t : LogicalType) (sound : m.Sound) :
    t.declare.Ensures m fun id m' => m.Quiet m' ∧ t.IsDeclared m' id := by
  refine (t.declareVector_quiet sound).bind inferInstance ?_
  rintro vector m₁ ⟨first, isVector⟩
  unfold IsDeclared
  split
  · refine (Build.wordConstant_quiet first.sound t.elements).bind inferInstance ?_
    rintro length m₂ ⟨second, type, size⟩
    have vectorKnown := second.extension.results_subset (isVector.mem_results first.sound)
    have lengthKnown := second.sound.coherent.mem_results_of_declares (.constant size)
    have inScope : (TypeDecl.array vector length).operands.filterMap Operand.ref? ⊆
        results m₂.globals :=
      List.cons_subset.2 ⟨vectorKnown, List.cons_subset.2 ⟨lengthKnown, List.nil_subset _⟩⟩
    refine (Build.declareType_quiet second.sound inScope).imp ?_
    rintro id m₃ ⟨third, found⟩
    refine ⟨(first.trans second).trans third, vector, length, type, ?_, ?_, found⟩
    · exact isVector.grows first.sound (second.trans third).extension
    · exact third.extension.constDecl second.sound.coherent size
  · exact .pure ⟨first, isVector⟩

end LogicalType

namespace PlaceType

def IsDeclared (t : PlaceType) (m : Module) (id : ResultId) : Prop :=
  ∃ value, t.value.IsDeclared m value ∧ m.typeDecl? id = some (.pointer value t.storage)

variable {t : PlaceType} {m m' : Module} {id : ResultId}

theorem IsDeclared.grows (declared : t.IsDeclared m id) (sound : m.Sound) (grown : m.Extends m') :
    t.IsDeclared m' id := by
  obtain ⟨value, isValue, known⟩ := declared
  exact ⟨value, isValue.grows sound grown, grown.typeDecl sound.coherent known⟩

theorem declare_quiet (t : PlaceType) (sound : m.Sound) :
    t.declare.Ensures m fun id m' => m.Quiet m' ∧ t.IsDeclared m' id := by
  refine (t.value.declare_quiet sound).bind inferInstance ?_
  rintro value m₁ ⟨first, declared⟩
  have valueKnown := declared.mem_results first.sound
  have inScope : (TypeDecl.pointer value t.storage).operands.filterMap Operand.ref? ⊆
      results m₁.globals := List.cons_subset.2 ⟨valueKnown, List.nil_subset _⟩
  refine (Build.declareType_quiet first.sound inScope).imp ?_
  rintro id m₂ ⟨second, found⟩
  exact ⟨first.trans second, value, declared.grows first.sound second.extension, found⟩

end PlaceType

/-! Values. -/

instance (x : Binary32) : Monotone (Value.float x) := by
  unfold Value.float
  infer_instance

namespace Value

theorem float_quiet {m : Module} (sound : m.Sound) (x : Binary32) :
    (float x).Ensures m fun v m' => m.Quiet m' ∧ v.type = .float ∧
      ∃ type, m'.constDecl? v.id = some (.float type x) := by
  refine (Build.floatConstant_quiet sound x).bind inferInstance ?_
  rintro id m₁ ⟨first, type, found⟩
  exact .pure ⟨first, rfl, type, found⟩

def floatVector (width : Width) (xs : List Binary32) : Build Value := do
  let typeId ← LogicalType.declare ⟨.float32, width, 0⟩
  let lanes ← xs.mapM Build.floatConstant
  let id ← Build.compositeConstant typeId lanes
  return ⟨⟨.float32, width, 0⟩, id⟩

instance (width : Width) (xs : List Binary32) : Monotone (floatVector width xs) := by
  unfold floatVector
  infer_instance

theorem floats_eq_ok {xs : List Binary32} {action : Build Value} (done : floats xs = .ok action) :
    (∃ x, xs = [x] ∧ action = float x) ∨
      ∃ width, xs.length ≠ 1 ∧ action = floatVector width xs := by
  unfold floats at done
  split at done
  · rename_i x
    cases done
    exact .inl ⟨x, rfl, rfl⟩
  · rename_i several
    obtain ⟨type, found, same⟩ := bind_eq_ok.1 done
    obtain ⟨width, -, typeEq⟩ := bind_eq_ok.1 found
    cases same
    cases typeEq
    refine .inr ⟨width, ?_, rfl⟩
    intro single
    obtain ⟨x, isSingle⟩ := List.length_eq_one_iff.1 single
    exact several x isSingle

theorem floatVector_quiet {m : Module} (sound : m.Sound) (width : Width) (xs : List Binary32) :
    (floatVector width xs).Ensures m fun v m' => m.Quiet m' ∧ v.type = ⟨.float32, width, 0⟩ ∧
      ∃ type parts, m'.constDecl? v.id = some (.composite type parts) ∧
        List.Forall₂ (fun x part => ∃ t, m'.constDecl? part = some (.float t x)) xs parts := by
  refine (LogicalType.declare_quiet _ sound).bind inferInstance ?_
  rintro typeId m₁ ⟨first, declared⟩
  have kept : ∀ (m m' : Module) (x : Binary32) (id : ResultId), m.Sound → m.Quiet m' →
      (∃ t, m.constDecl? id = some (.float t x)) → ∃ t, m'.constDecl? id = some (.float t x) := by
    rintro m m' x id sound quiet ⟨t, found⟩
    exact ⟨t, quiet.extension.constDecl sound.coherent found⟩
  refine (Build.mapM_quiet (fun m x sound => Build.floatConstant_quiet sound x) kept xs
    first.sound).bind inferInstance ?_
  rintro lanes m₂ ⟨second, all⟩
  have typeKnown := second.extension.results_subset (declared.mem_results first.sound)
  have constants : ∀ lane ∈ lanes, ∃ d, m₂.constDecl? lane = some d := by
    intro lane member
    obtain ⟨x, t, found⟩ := exists_of_mem_forall₂ all lane member
    exact ⟨_, found⟩
  refine (Build.compositeConstant_quiet second.sound typeKnown constants).bind inferInstance ?_
  rintro id m₃ ⟨third, found⟩
  refine .pure ⟨(first.trans second).trans third, rfl, typeId, lanes, found, ?_⟩
  refine all.imp ?_
  rintro x lane ⟨t, known⟩
  exact ⟨t, third.extension.constDecl second.sound.coherent known⟩

theorem float_constant {m : Module} (sound : m.Sound) (x : Binary32) :
    (float x).Ensures m fun v m' => m.Quiet m' ∧ ∃ d, m'.constDecl? v.id = some d := by
  refine (float_quiet sound x).imp ?_
  rintro v m' ⟨quiet, -, type, constant⟩
  exact ⟨quiet, _, constant⟩

theorem floatVector_constant {m : Module} (sound : m.Sound) (width : Width) (xs : List Binary32) :
    (floatVector width xs).Ensures m fun v m' => m.Quiet m' ∧ ∃ d, m'.constDecl? v.id = some d := by
  refine (floatVector_quiet sound width xs).imp ?_
  rintro v m' ⟨quiet, -, type, parts, constant, -⟩
  exact ⟨quiet, _, constant⟩

end Value

/-! Instructions that compute a value of a logical type. -/

def LogicalType.compute (t : LogicalType) (opcode : Opcode) (operands : List Operand) :
    Build Value := do
  let type ← t.declare
  let id ← Build.emitValue opcode type operands
  return ⟨t, id⟩

instance (t : LogicalType) (opcode : Opcode) (operands : List Operand) :
    Monotone (t.compute opcode operands) := by
  unfold LogicalType.compute
  infer_instance

theorem LogicalType.compute_emits {defined : List ResultId} {m : Module} (sound : m.Sound)
    (t : LogicalType) {opcode : Opcode} {operands : List Operand}
    (straight : ∀ id type, Instruction.isStraight ⟨opcode, some id, some type, operands⟩)
    (known : operands.filterMap Operand.ref? ⊆ m.scope defined) :
    (t.compute opcode operands).Ensures m fun v m' => v.type = t ∧
      ∃ type, Emits defined m [⟨opcode, some v.id, some type, operands⟩] m' := by
  refine (t.declare_quiet sound).bind inferInstance ?_
  rintro type m₁ ⟨quiet, declared⟩
  have typeKnown : type ∈ m₁.scope defined :=
    List.mem_append_left _ (declared.mem_results quiet.sound)
  have operandsKnown : operands.filterMap Operand.ref? ⊆ m₁.scope defined :=
    fun id member => quiet.extension.scope_subset _ (known member)
  refine (Build.emitValue_emits quiet.sound (fun id => straight id type)
    (List.cons_subset.2 ⟨typeKnown, operandsKnown⟩)).bind inferInstance ?_
  intro id m₂ emits
  exact .pure ⟨rfl, type, quiet.andEmits emits⟩

namespace Place

instance (p : Place) : Monotone p.load := inferInstanceAs (Monotone (LogicalType.compute _ _ _))

theorem load_emits {defined : List ResultId} {m : Module} (sound : m.Sound) {p : Place}
    (known : p.id ∈ m.scope defined) :
    p.load.Ensures m fun v m' => v.type = p.type.value ∧
      ∃ type, Emits defined m [⟨.opLoad, some v.id, some type, [.ref p.id]⟩] m' :=
  LogicalType.compute_emits sound _ (fun _ _ => rfl)
    (List.cons_subset.2 ⟨known, List.nil_subset _⟩)

end Place

namespace Merge
variable {dst src : Value}

instance (plan : Merge) : Monotone (plan.emit dst src) := by
  cases plan with
  | keep => exact inferInstanceAs (Monotone (pure dst))
  | replace => exact inferInstanceAs (Monotone (pure _))
  | insert lane => exact inferInstanceAs (Monotone (LogicalType.compute _ _ _))
  | shuffle selectors => exact inferInstanceAs (Monotone (LogicalType.compute _ _ _))

theorem insert_emits {defined : List ResultId} {m : Module} (sound : m.Sound)
    (dstKnown : dst.id ∈ m.scope defined)
    (srcKnown : src.id ∈ m.scope defined) (lane : Nat) :
    ((insert lane).emit dst src).Ensures m fun v m' => v.type = dst.type ∧
      ∃ type, Emits defined m [⟨.opCompositeInsert, some v.id, some type,
        .ref src.id :: .ref dst.id :: [UInt32.ofNat lane].map .literal⟩] m' :=
  LogicalType.compute_emits sound _ (fun _ _ => rfl)
    (List.cons_subset.2 ⟨srcKnown, List.cons_subset.2 ⟨dstKnown, List.nil_subset _⟩⟩)

theorem shuffle_emits {defined : List ResultId} {m : Module} (sound : m.Sound)
    (dstKnown : dst.id ∈ m.scope defined)
    (srcKnown : src.id ∈ m.scope defined) (selectors : List UInt32) :
    ((shuffle selectors).emit dst src).Ensures m fun v m' => v.type = dst.type ∧
      ∃ type, Emits defined m [⟨.opVectorShuffle, some v.id, some type,
        .ref dst.id :: .ref src.id :: selectors.map .literal⟩] m' := by
  refine LogicalType.compute_emits sound _ (fun _ _ => rfl) ?_
  intro id member
  simp only [List.filterMap_cons, Operand.ref?, Operand.refs_literals, List.mem_cons,
    List.not_mem_nil, or_false] at member
  rcases member with rfl | rfl
  · exact dstKnown
  · exact srcKnown

theorem emit_emits {defined : List ResultId} {m : Module} (sound : m.Sound)
    (dstKnown : dst.id ∈ m.scope defined)
    (srcKnown : src.id ∈ m.scope defined) (plan : Merge) :
    (plan.emit dst src).Ensures m fun v m' => ∃ is, Emits defined m is m' ∧
      v.id ∈ m'.scope (defined ++ results is) := by
  have unchanged : Emits defined m [] m := (Module.Quiet.refl sound).emits defined
  cases plan with
  | keep => exact .pure ⟨[], unchanged, by simpa [results] using dstKnown⟩
  | replace => exact .pure ⟨[], unchanged, by simpa [results] using srcKnown⟩
  | insert lane =>
    refine (insert_emits sound dstKnown srcKnown lane).imp ?_
    rintro v m' ⟨-, type, emits⟩
    exact ⟨_, emits, by simp [Module.scope, results]⟩
  | shuffle selectors =>
    refine (shuffle_emits sound dstKnown srcKnown selectors).imp ?_
    rintro v m' ⟨-, type, emits⟩
    exact ⟨_, emits, by simp [Module.scope, results]⟩

end Merge

namespace Place

def storeMerged (p : Place) (value : Value) (plan : Merge) : Build Unit := do
  let current ← p.load
  let merged ← plan.emit current value
  Build.store p.id merged.id

instance (p : Place) (value : Value) (plan : Merge) : Monotone (p.storeMerged value plan) := by
  unfold storeMerged
  infer_instance

theorem store_eq_ok {p : Place} {value : Value} {mask : LaneMask} {action : Build Unit}
    (done : p.store value mask = .ok action) :
    (value.type.width = p.type.value.width ∧ mask = .firstLanes p.type.value.width.count ∧
      action = Build.store p.id value.id) ∨
    ∃ plan, Merge.plan p.type.value.width value.type.width mask = .ok plan ∧
      action = p.storeMerged value plan := by
  unfold store at done
  simp only at done
  split at done
  · rename_i whole
    cases done
    exact .inl ⟨whole.1, whole.2, rfl⟩
  · obtain ⟨plan, planned, same⟩ := bind_eq_ok.1 done
    cases same
    exact .inr ⟨plan, planned, rfl⟩

theorem storeMerged_emits {defined : List ResultId} {m : Module} (sound : m.Sound) {p : Place}
    {value : Value} (placeKnown : p.id ∈ m.scope defined)
    (valueKnown : value.id ∈ m.scope defined) (plan : Merge) :
    (p.storeMerged value plan).Ensures m fun _ m' => ∃ is, Emits defined m is m' := by
  have loading : p.load.Ensures m fun v m' => ∃ is, Emits defined m is m' ∧
      v.id ∈ m'.scope (defined ++ results is) := by
    refine (load_emits sound placeKnown).imp ?_
    rintro v m' ⟨-, type, emits⟩
    exact ⟨_, emits, by simp [Module.scope, results]⟩
  refine loading.bind inferInstance ?_
  rintro current m₁ ⟨is, loads, currentKnown⟩
  refine (Merge.emit_emits loads.sound currentKnown (loads.scope_subset valueKnown) plan).bind
    inferInstance ?_
  rintro merged m₂ ⟨js, merges, mergedKnown⟩
  have both : Emits defined m (is ++ js) m₂ := loads.trans merges
  have placeLater : p.id ∈ m₂.scope (defined ++ results (is ++ js)) :=
    both.scope_subset placeKnown
  have mergedLater : merged.id ∈ m₂.scope (defined ++ results (is ++ js)) := by
    simpa [Module.scope, List.append_assoc] using mergedKnown
  refine (Build.store_emits merges.sound placeLater mergedLater).imp ?_
  intro _ m₃ stores
  exact ⟨_, both.trans stores⟩

end Place

/-! Registers. -/

namespace Registers

theorem mem_of_get {r : Registers} {index : Nat} {p : Place} (found : r.get index = .ok p) :
    p ∈ r.places := by
  unfold get get? at found
  split at found
  · rename_i there
    cases found
    exact List.mem_of_getElem? there
  · cases found

instance (type : ResultId) (index : Nat) : Monotone (declareOne type index) := by
  unfold declareOne
  infer_instance

instance (r : Registers) (n : Nat) (f : Nat → Build Place) [∀ i, Monotone (f i)] :
    Monotone (r.grow n f) := by
  unfold grow
  infer_instance

instance (r : Registers) (n : Nat) : Monotone (r.reserve n) := by
  unfold reserve
  infer_instance

/-- A register that was declared after the first module, with its declarations in the second. -/
structure IsNew (m m' : Module) (p : Place) : Prop where
  new : m.issued < p.id.index
  declared : ∃ pointer, m'.varDecl? p.id = some ⟨pointer, .privateStorage⟩ ∧
    placeType.IsDeclared m' pointer

theorem IsNew.grows {m m' m'' : Module} {p : Place} (isNew : IsNew m m' p) (sound : m'.Sound)
    (grown : m'.Extends m'') : IsNew m m'' p := by
  obtain ⟨new, pointer, known, declared⟩ := isNew
  exact ⟨new, pointer, grown.varDecl sound.coherent known, declared.grows sound grown⟩

theorem declareOne_quiet {m : Module} (sound : m.Sound) {type : ResultId}
    (declared : placeType.IsDeclared m type) (index : Nat) :
    (declareOne type index).Ensures m fun p m' => m.Quiet m' ∧ IsNew m m' p := by
  obtain ⟨value, isValue, points⟩ := declared
  refine (Build.declareVariable_quiet sound points (isValue.zero sound)).bind inferInstance ?_
  rintro id m₁ ⟨first, known, new⟩
  refine (Build.attachName_quiet first.sound _).bind inferInstance ?_
  intro _ m₂ second
  have grown := (first.trans second).extension
  refine .pure ⟨first.trans second, new, type, second.extension.varDecl first.sound.coherent known, ?_⟩
  exact ⟨value, isValue.grows sound grown, grown.typeDecl sound.coherent points⟩

theorem declareMany_quiet {m : Module} (sound : m.Sound) {type : ResultId}
    (declared : placeType.IsDeclared m type) (indices : List Nat) :
    (indices.mapM (declareOne type)).Ensures m fun ps m' => m.Quiet m' ∧
      ps.length = indices.length ∧ (ps.map Place.id).Nodup ∧ ∀ p ∈ ps, IsNew m m' p := by
  induction indices generalizing m with
  | nil => exact .pure ⟨.refl sound, rfl, List.nodup_nil, by simp⟩
  | cons index indices ih =>
    rw [List.mapM_cons]
    refine (declareOne_quiet sound declared index).bind inferInstance ?_
    rintro p m₁ ⟨first, isNew⟩
    refine (ih first.sound (declared.grows sound first.extension)).bind inferInstance ?_
    rintro ps m₂ ⟨second, count, distinct, allNew⟩
    have within : p.id.index ≤ m₁.issued := by
      obtain ⟨pointer, known, -⟩ := isNew.declared
      exact first.sound.coherent.given_of_var known
    refine .pure ⟨first.trans second, by simp [count], ?_, ?_⟩
    · rw [List.map_cons, List.nodup_cons]
      refine ⟨?_, distinct⟩
      intro again
      obtain ⟨q, member, same⟩ := List.mem_map.1 again
      have beyond := (allNew q member).new
      rw [same] at beyond
      omega
    · intro q member
      rcases List.mem_cons.1 member with rfl | later
      · exact isNew.grows first.sound second.extension
      · obtain ⟨new, known⟩ := allNew q later
        exact ⟨Nat.lt_of_le_of_lt first.extension.issued new, known⟩

theorem reserve_quiet {m : Module} (sound : m.Sound) (r : Registers) (n : Nat) :
    (r.reserve n).Ensures m fun r' m' => m.Quiet m' ∧ ∃ fresh, r'.places = r.places ++ fresh ∧
      fresh.length = n - r.size ∧ (fresh.map Place.id).Nodup ∧ ∀ p ∈ fresh, IsNew m m' p := by
  unfold reserve
  split
  · rename_i enough
    refine .pure ⟨.refl sound, [], by simp, ?_, List.nodup_nil, by simp⟩
    simp only [List.length_nil]
    omega
  · refine (placeType.declare_quiet sound).bind inferInstance ?_
    rintro type m₁ ⟨first, declared⟩
    refine (declareMany_quiet first.sound declared _).bind inferInstance ?_
    rintro fresh m₂ ⟨second, count, distinct, allNew⟩
    refine .pure ⟨first.trans second, fresh, rfl, ?_, distinct, ?_⟩
    · rw [count]
      simp [missing]
    · intro p member
      obtain ⟨new, known⟩ := allNew p member
      exact ⟨Nat.lt_of_le_of_lt first.extension.issued new, known⟩

end Registers

/-! The block of outputs. -/

namespace VertexBlock

instance : Monotone declare := by
  unfold declare
  infer_instance

instance (block : ResultId) : Monotone (position block) := by
  unfold position
  infer_instance

def IsBlock (m : Module) (block : ResultId) : Prop :=
  ∃ members, m.typeDecl? block = some (.struct members) ∧
    List.Forall₂ (fun member id => member.type.IsDeclared m id) Member.all members

variable {m m' : Module} {block : ResultId}

theorem IsBlock.grows (isBlock : IsBlock m block) (sound : m.Sound) (grown : m.Extends m') :
    IsBlock m' block := by
  obtain ⟨members, known, all⟩ := isBlock
  exact ⟨members, grown.typeDecl sound.coherent known,
    all.imp fun _ _ declared => declared.grows sound grown⟩

def zero : Contents := .composite (Member.all.map fun member => member.type.zero)

theorem IsBlock.zero (isBlock : IsBlock m block) (sound : m.Sound) : m.zero block = .ok zero := by
  obtain ⟨members, known, all⟩ := isBlock
  have given := sound.coherent.given_of_type known
  unfold Module.zero
  rw [Module.toNat_bound sound.coherent.fit]
  unfold Module.zeroWithin
  rw [known]
  refine bind_eq_ok.2 ⟨Member.all.map fun member => member.type.zero, mapM_eq_ok.2 ?_, rfl⟩
  rw [List.forall₂_map_right_iff]
  have smaller : ∀ id ∈ members, id.index < m.issued := by
    intro id member
    have mentioned : id ∈ ((TypeDecl.struct members).instruction block).mentions := by
      simpa [TypeDecl.instruction, Instruction.mentions, TypeDecl.operands, Operand.ref?] using member
    have below := sound.index_lt (.type known) mentioned
    omega
  refine ((List.forall₂_and_left members Member.all).2 ⟨smaller, all.flip⟩).imp ?_
  intro id member both
  have declared : member.type.IsDeclared m id := both.2
  exact declared.zeroWithin sound both.1

theorem declare_quiet (sound : m.Sound) :
    declare.Ensures m fun block m' => m.Quiet m' ∧ IsBlock m' block := by
  refine (Build.mapM_quiet (fun m (member : Member) sound => member.type.declare_quiet sound)
    (fun m m' member id sound quiet declared => declared.grows sound quiet.extension) Member.all
    sound).bind inferInstance ?_
  rintro members m₁ ⟨first, all⟩
  have known : (TypeDecl.struct members).operands.filterMap Operand.ref? ⊆ results m₁.globals := by
    intro id member
    have inMembers : id ∈ members := by simpa [TypeDecl.operands, Operand.ref?] using member
    obtain ⟨_, declared⟩ := exists_of_mem_forall₂ all id inMembers
    exact declared.mem_results first.sound
  refine (Build.declareType_quiet first.sound known).bind inferInstance ?_
  rintro block m₂ ⟨second, found⟩
  have isBlock : IsBlock m₂ block :=
    ⟨members, found, all.imp fun _ _ declared => declared.grows first.sound second.extension⟩
  refine (Build.forM_quiet (fun m _ sound => Build.annotate_quiet sound _) _ second.sound).bind
    inferInstance ?_
  intro _ m₃ third
  refine (Build.annotate_quiet third.sound _).bind inferInstance ?_
  intro _ m₄ fourth
  refine (Build.attachName_quiet fourth.sound _).bind inferInstance ?_
  intro _ m₅ fifth
  refine (Build.forM_quiet (fun m _ sound => Build.attachName_quiet sound _) _ fifth.sound).bind
    inferInstance ?_
  intro _ m₆ sixth
  have after : m₂.Quiet m₆ := third.trans (fourth.trans (fifth.trans sixth))
  exact .pure ⟨(first.trans second).trans after, isBlock.grows second.sound after.extension⟩

theorem position_emits {defined : List ResultId} (sound : m.Sound)
    (known : block ∈ m.scope defined) :
    (position block).Ensures m fun p m' => p.type = ⟨.float4, .output⟩ ∧
      ∃ type member word, m'.constDecl? member = some (.word word 0) ∧
        Emits defined m [⟨.opAccessChain, some p.id, some type, [.ref block, .ref member]⟩] m' := by
  refine (PlaceType.declare_quiet ⟨Member.position.type, .output⟩ sound).bind inferInstance ?_
  rintro type m₁ ⟨first, value, -, pointer⟩
  refine (Build.wordConstant_quiet first.sound 0).bind inferInstance ?_
  rintro member m₂ ⟨second, word, zero⟩
  have grown := (first.trans second).extension
  have typeKnown := second.extension.results_subset
    (first.sound.coherent.mem_results_of_declares (.type pointer))
  have memberKnown := second.sound.coherent.mem_results_of_declares (.constant zero)
  have blockKnown := grown.scope_subset defined known
  have inScope : type :: [Operand.ref block, .ref member].filterMap Operand.ref? ⊆
      m₂.scope defined :=
    List.cons_subset.2 ⟨List.mem_append_left _ typeKnown, List.cons_subset.2 ⟨blockKnown,
      List.cons_subset.2 ⟨List.mem_append_left _ memberKnown, List.nil_subset _⟩⟩⟩
  refine (Build.emitValue_emits second.sound (fun _ => rfl) inScope).bind inferInstance ?_
  intro id m₃ emits
  exact .pure ⟨rfl, type, member, word, emits.extension.constDecl second.sound.coherent zero,
    (first.trans second).andEmits emits⟩

end VertexBlock

end Shader
