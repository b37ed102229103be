import Shader.Proofs.Acceptance
import Shader.Proofs.Numbering
import Shader.Proofs.TypeRegistry

/-!
Temporary registers over the life of an emitter. Main statement: there are as many as the largest
number that was asked for, and each has a variable of its own, with the type and the name of a register,
which it keeps whatever else is done to the module.
-/

namespace Shader
open Build (Ensures Monotone Traced Keeps)

/-! Operations that give no names. -/

section Nameless
open Build

instance : Keeps Module.names freshId := ⟨fun _ => rfl⟩

instance (d : VarDecl) : Keeps Module.names (declareVariable d) := ⟨fun _ => rfl⟩

instance (capability : Capability) : Keeps Module.names (enableCapability capability) := by
  constructor
  intro m
  change (m.addCapability capability).names = m.names
  unfold Module.addCapability
  split <;> rfl

instance (addressing : AddressingModel) (memory : MemoryModel) :
    Keeps Module.names (setMemoryModel addressing memory) := ⟨fun _ => rfl⟩

instance (entry : EntryPoint) : Keeps Module.names (addEntryPoint entry) := ⟨fun _ => rfl⟩

instance (resultType id functionType : ResultId) :
    Keeps Module.names (beginFunction resultType id functionType) := ⟨fun _ => rfl⟩

instance (id : ResultId) : Keeps Module.names (label id) := ⟨fun _ => rfl⟩

instance : Keeps Module.names returnVoid := ⟨fun _ => rfl⟩

instance : Keeps Module.names endFunction := ⟨fun _ => rfl⟩

instance (type pointer : ResultId) : Keeps Module.names (load type pointer) := ⟨fun _ => rfl⟩

instance (pointer object : ResultId) : Keeps Module.names (store pointer object) := ⟨fun _ => rfl⟩

instance (type object composite : ResultId) (indices : List UInt32) :
    Keeps Module.names (compositeInsert type object composite indices) := ⟨fun _ => rfl⟩

instance (type first second : ResultId) (selectors : List UInt32) :
    Keeps Module.names (vectorShuffle type first second selectors) := ⟨fun _ => rfl⟩

instance (type base : ResultId) (indices : List ResultId) :
    Keeps Module.names (accessChain type base indices) := ⟨fun _ => rfl⟩

instance (target : ResultId) (decoration : Decoration) (operands : List Operand) :
    Keeps Module.names (decorate target decoration operands) := ⟨fun _ => rfl⟩

instance (target : ResultId) (member : UInt32) (builtIn : BuiltIn) :
    Keeps Module.names (decorateMember target member builtIn) := ⟨fun _ => rfl⟩

instance (x : Binary32) : Keeps Module.names (Value.float x) := by
  unfold Value.float
  infer_instance

instance (width : Width) (xs : List Binary32) : Keeps Module.names (Value.floatVector width xs) := by
  unfold Value.floatVector
  infer_instance

instance (p : Place) : Keeps Module.names p.load := by
  unfold Place.load
  infer_instance

instance (dst src : Value) (plan : Merge) : Keeps Module.names (plan.emit dst src) := by
  cases plan <;> unfold Merge.emit <;> infer_instance

instance (p : Place) (value : Value) (plan : Merge) :
    Keeps Module.names (p.storeMerged value plan) := by
  unfold Place.storeMerged
  infer_instance

instance (block : ResultId) : Keeps Module.names (VertexBlock.position block) := by
  unfold VertexBlock.position
  infer_instance

instance : Keeps Module.names VertexEmitter.declareFunctionType := by
  unfold VertexEmitter.declareFunctionType
  infer_instance

instance (void entry type : ResultId) :
    Keeps Module.names (VertexEmitter.openFunction void entry type) := by
  unfold VertexEmitter.openFunction
  infer_instance

end Nameless

/-! Modules in which only ids that were given out have names. -/

namespace Module
variable {m m' : Module}

structure Orderly (m : Module) : Prop where
  interned : m.Interned
  named : ∀ id text, m.name? id = some text → id.index ≤ m.issued

theorem orderly_empty : empty.Orderly where
  interned := interned_empty
  named id text found := by cases found

theorem Orderly.name?_freshId (orderly : m.Orderly) (fit : m.IdsFit) : m.name? m.freshId = none :=
  Option.eq_none_iff_forall_ne_some.2 fun text found => ne_freshId fit (orderly.named _ text found) rfl

structure Develops (m m' : Module) : Prop where
  orderly : m'.Orderly
  extension : m.Extends m'

theorem Develops.refl (orderly : m.Orderly) : m.Develops m := ⟨orderly, .refl m⟩

theorem Develops.trans {m₁ : Module} (first : m.Develops m₁) (second : m₁.Develops m') :
    m.Develops m' := ⟨second.orderly, first.extension.trans second.extension⟩

end Module

namespace Build
variable {α β : Type} {m : Module} (orderly : m.Orderly)
include orderly

theorem develops_of_same_names {x : Build α} [Traced x] (same : (x m).2.names = m.names) :
    x.Ensures m fun _ m' => m.Develops m' := by
  intro fit
  have grown := Traced.accumulates orderly.interned x fit
  refine ⟨⟨grown.interned, fun id text found => ?_⟩, grown.extension⟩
  rw [Module.name?, same] at found
  exact Nat.le_trans (orderly.named id text found) grown.extension.issued

theorem develops_of_keeps (x : Build α) [Traced x] [Keeps Module.names x] :
    x.Ensures m fun _ m' => m.Develops m' :=
  develops_of_same_names orderly (Keeps.eq Module.names x m)

theorem attachName_develops {i : Instruction}
    (given : ∀ id text, Instruction.nameOf? id i = some text → id.index ≤ m.issued) :
    (attachName i).Ensures m fun _ m' => m.Develops m' := by
  intro fit
  have grown := Traced.accumulates orderly.interned (attachName i) fit
  refine ⟨⟨grown.interned, fun id text found => ?_⟩, grown.extension⟩
  change (m.names ++ [i]).findSome? (Instruction.nameOf? id) = some text at found
  rw [List.findSome?_append] at found
  rcases Option.or_eq_some_iff.1 found with old | ⟨-, new⟩
  · exact orderly.named id text old
  · exact given id text (by simpa using new)

theorem name_develops {target : ResultId} (given : target.index ≤ m.issued) (text : String) :
    (name target text).Ensures m fun _ m' => m.Develops m' := by
  refine attachName_develops orderly fun id other found => ?_
  obtain ⟨rfl, -⟩ := Option.ite_none_right_eq_some.1 found
  exact given

theorem nameMember_develops (target : ResultId) (member : UInt32) (text : String) :
    (nameMember target member text).Ensures m fun _ m' => m.Develops m' :=
  attachName_develops orderly fun _ _ found => by cases found

theorem forM_develops {f : α → Build PUnit} [∀ a, Monotone (f a)]
    (each : ∀ a (m : Module), m.Orderly → (f a).Ensures m fun _ m' => m.Develops m') (xs : List α) :
    (xs.forM f).Ensures m fun _ m' => m.Develops m' := by
  induction xs generalizing m with
  | nil => exact .pure (.refl orderly)
  | cons x xs ih =>
    refine (each x m orderly).bind (fun _ => inferInstanceAs (Monotone (xs.forM f))) ?_
    intro _ m₁ first
    exact (ih first.orderly).imp fun _ _ second => first.trans second

theorem declareType_develops (d : TypeDecl) :
    (declareType d).Ensures m fun id m' => m.Develops m' ∧ id.index ≤ m'.issued := by
  intro fit
  have grown := develops_of_keeps orderly (declareType d) fit
  obtain ⟨-, known⟩ := declareType_accumulates orderly.interned d fit
  exact ⟨grown, grown.orderly.interned.keyed.types.of_get? known⟩

theorem declareVariable_develops (d : VarDecl) :
    (declareVariable d).Ensures m fun id m' => m.Develops m' ∧ id.index ≤ m'.issued := by
  intro fit
  have fitHere : m.IdsFit := fit.of_le (Nat.le_succ _)
  exact ⟨develops_of_keeps orderly (declareVariable d) fit, Nat.le_of_eq (Module.index_freshId fitHere)⟩

end Build

section Emitting
variable {m : Module} (orderly : m.Orderly)
include orderly

theorem VertexBlock.declare_develops : declare.Ensures m fun _ m' => m.Develops m' := by
  have declared := Build.develops_of_keeps orderly (Member.all.mapM fun member => member.type.declare)
  refine declared.bind inferInstance ?_
  intro members m₁ first
  refine (Build.declareType_develops first.orderly (.struct members)).bind inferInstance ?_
  rintro block m₂ ⟨second, given⟩
  have decorated := Build.develops_of_keeps second.orderly
    (Member.all.forM fun member => Build.decorateMember block member.index member.builtIn)
  refine decorated.bind inferInstance ?_
  intro _ m₃ third
  refine (Build.develops_of_keeps third.orderly (Build.decorate block .block [])).bind inferInstance ?_
  intro _ m₄ fourth
  have given₄ := Nat.le_trans given (third.trans fourth).extension.issued
  refine (Build.name_develops fourth.orderly given₄ "per_vertex").bind inferInstance ?_
  intro _ m₅ fifth
  have membersNamed := Build.forM_develops fifth.orderly
    (fun (member : Member) _ orderly =>
      Build.nameMember_develops orderly block member.index member.name) Member.all
  refine membersNamed.bind inferInstance ?_
  intro _ m₆ sixth
  exact .pure ((first.trans second).trans ((third.trans fourth).trans (fifth.trans sixth)))

theorem VertexEmitter.declareOutput_develops :
    declareOutput.Ensures m fun _ m' => m.Develops m' := by
  refine (VertexBlock.declare_develops orderly).bind inferInstance ?_
  intro block m₁ first
  refine (Build.declareType_develops first.orderly (.pointer block .output)).bind inferInstance ?_
  rintro pointer m₂ ⟨second, -⟩
  refine (Build.declareVariable_develops second.orderly ⟨pointer, .output⟩).bind inferInstance ?_
  rintro output m₃ ⟨third, given⟩
  refine (Build.name_develops third.orderly given "vs_per_vertex").bind inferInstance ?_
  intro _ m₄ fourth
  exact .pure ((first.trans second).trans (third.trans fourth))

theorem Emitter.start_develops : Emitter.start.Ensures m fun e m' =>
    m.Develops m' ∧ e.entry.index ≤ m'.issued ∧ e.temps = {} := by
  refine (Build.develops_of_keeps orderly (Build.enableCapability .shader)).bind inferInstance ?_
  intro _ m₁ first
  refine (Build.develops_of_keeps first.orderly
    (Build.setMemoryModel .logical .glsl450)).bind inferInstance ?_
  intro _ m₂ second fit
  have fit₂ : m₂.IdsFit := fit.of_le (Nat.le_succ _)
  have third := Build.develops_of_keeps second.orderly Build.freshId fit
  exact ⟨(first.trans second).trans third, Nat.le_of_eq (Module.index_freshId fit₂), rfl⟩

theorem VertexEmitter.start_develops : VertexEmitter.start.Ensures m fun e m' =>
    m.Develops m' ∧ e.entry.index ≤ m'.issued ∧ e.temps = {} := by
  rw [start_eq]
  refine (Emitter.start_develops orderly).bind inferInstance ?_
  rintro emitter m₁ ⟨first, given, empty⟩
  refine (declareOutput_develops first.orderly).bind inferInstance ?_
  intro output m₂ second
  refine (Build.develops_of_keeps second.orderly declareFunctionType).bind inferInstance ?_
  rintro ⟨void, type⟩ m₃ third
  refine (Build.develops_of_keeps third.orderly
    (openFunction void emitter.entry type)).bind inferInstance ?_
  intro _ m₄ fourth
  have later := (second.trans third).trans fourth
  exact .pure ⟨first.trans later, Nat.le_trans given later.extension.issued, empty⟩

theorem Generator.start_develops : Generator.start.Ensures m fun g m' =>
    m.Develops m' ∧ g.emitter.entry.index ≤ m'.issued ∧ g.emitter.temps = {} := by
  refine (Emitter.start_develops orderly).bind inferInstance ?_
  exact fun _ _ started => .pure started

theorem Generator.forStage_develops {stage : Stage} {start : Build Generator}
    (found : forStage stage = .ok start) : start.Ensures m fun g m' =>
      m.Develops m' ∧ g.emitter.entry.index ≤ m'.issued ∧ g.emitter.temps = {} := by
  rw [forStage_eq_ok found]
  refine (VertexEmitter.start_develops orderly).bind inferInstance ?_
  exact fun _ _ started => .pure started

theorem VertexEmitter.finish_develops {e : VertexEmitter} (given : e.entry.index ≤ m.issued) :
    e.finish.Ensures m fun _ m' => m.Develops m' := by
  refine (Build.develops_of_keeps orderly Build.returnVoid).bind inferInstance ?_
  intro _ m₁ first
  refine (Build.develops_of_keeps first.orderly Build.endFunction).bind inferInstance ?_
  intro _ m₂ second
  refine (Build.develops_of_keeps second.orderly
    (Build.addEntryPoint ⟨e.entry, .vertex, "main", [e.output]⟩)).bind inferInstance ?_
  intro _ m₃ third
  have closed := (first.trans second).trans third
  refine (Build.name_develops third.orderly (Nat.le_trans given closed.extension.issued) "main").bind
    inferInstance ?_
  intro _ m₄ fourth
  exact .pure (closed.trans fourth)

end Emitting

/-! What is behind a register. -/

def Module.varIds (m : Module) : List ResultId := m.vars.toList.map Prod.fst

namespace Registers
variable {m m' : Module} {r : Registers} {type : ResultId}

/-- Every register has a variable that is private to an invocation, holds four floats and is named
after the register. Later registers have larger ids. -/
structure Backed (r : Registers) (m : Module) : Prop where
  increasing : (r.places.map Place.id).Pairwise (· < ·)
  each : ∀ i p, r.get? i = some p → p.type = placeType ∧ m.name? p.id = some ("r" ++ i.repr) ∧
    ∃ pointer, m.varDecl? p.id = some ⟨pointer, .privateStorage⟩ ∧
      m.request? pointer = some (.place placeType)

theorem backed_empty (m : Module) : Backed {} m where
  increasing := .nil
  each i p found := by cases found

theorem Backed.grows (backed : r.Backed m) (interned : m.Interned) (grown : m.Extends m') :
    r.Backed m' where
  increasing := backed.increasing
  each i p found := by
    obtain ⟨type, named, pointer, known, read⟩ := backed.each i p found
    refine ⟨type, findSome?_of_prefix grown.names named, pointer, ?_, ?_⟩
    · rw [grown.vars _ (interned.keyed.vars.of_get? known), known]
    · exact TypeRequest.request?_grows interned grown read

theorem Backed.given (backed : r.Backed m) (keyed : m.Keyed) {p : Place} (member : p ∈ r.places) :
    p.id.index ≤ m.issued := by
  obtain ⟨i, found⟩ := List.getElem?_of_mem member
  obtain ⟨-, -, pointer, known, -⟩ := backed.each i p found
  exact keyed.vars.of_get? known

theorem exists_get_iff {i : Nat} : (∃ p, r.get i = .ok p) ↔ i < r.size := by
  simp [get_eq_ok, size, ← Option.isSome_iff_exists]

theorem declareOne_develops (orderly : m.Orderly) (type : ResultId) (index : Nat) :
    (declareOne type index).Ensures m fun _ m' => m.Develops m' := by
  refine (Build.declareVariable_develops orderly ⟨type, placeType.storage⟩).bind inferInstance ?_
  rintro id m₁ ⟨first, given⟩
  refine (Build.name_develops first.orderly given ("r" ++ index.repr)).bind inferInstance ?_
  intro _ m₂ second
  exact .pure (first.trans second)

theorem declareOne_backs (orderly : m.Orderly) (backed : r.Backed m)
    (read : m.request? type = some (.place placeType)) :
    (declareOne type r.size).Ensures m fun p m' => m.Develops m' ∧
      Backed ⟨r.places ++ [p]⟩ m' ∧ m'.varIds = m.varIds ++ [p.id] := by
  intro fit
  have fitHere : m.IdsFit := fit.of_le (Nat.le_succ _)
  have grown := declareOne_develops orderly type r.size fit
  have old := backed.grows orderly.interned grown.extension
  refine ⟨grown, ⟨?_, ?_⟩, ?_⟩
  · rw [List.map_append]
    refine Module.pairwise_concat_freshId fitHere backed.increasing ?_
    exact List.forall_mem_map.2 fun p member => backed.given orderly.interned.keyed member
  · intro i p found
    rcases Nat.lt_trichotomy i r.size with early | rfl | late
    · exact old.each i p ((List.getElem?_append_left early).symm.trans found)
    · have last : (r.places ++ [(declareOne type r.size m).1])[r.size]? =
          some (declareOne type r.size m).1 := List.getElem?_concat_length
      obtain rfl := Option.some.inj (last.symm.trans found)
      refine ⟨rfl, ?_, type, Table.get?_insert_self .., ?_⟩
      · change (m.names ++ [_]).findSome? (Instruction.nameOf? m.freshId) = _
        have unnamed : m.names.findSome? (Instruction.nameOf? m.freshId) = none :=
          orderly.name?_freshId fitHere
        rw [List.findSome?_append, unnamed]
        simp [Instruction.nameOf?]
      · exact TypeRequest.request?_grows orderly.interned grown.extension read
    · have beyond : (r.places ++ [(declareOne type r.size m).1]).length ≤ i := by
        rw [List.length_append]
        exact late
      rw [get?, List.getElem?_eq_none beyond] at found
      cases found
  · change ((m.vars.insert m.freshId _).toList).map Prod.fst = _
    rw [orderly.interned.keyed.toList_vars_insert fitHere, List.map_append]
    rfl

theorem declareMany_backs (orderly : m.Orderly) (backed : r.Backed m)
    (read : m.request? type = some (.place placeType)) (count : Nat) :
    ((List.range' r.size count).mapM (declareOne type)).Ensures m fun fresh m' =>
      m.Develops m' ∧ fresh.length = count ∧ Backed ⟨r.places ++ fresh⟩ m' ∧
        m'.varIds = m.varIds ++ fresh.map Place.id := by
  induction count generalizing m r with
  | zero =>
    rw [List.range'_zero, List.mapM_nil]
    refine .pure ⟨.refl orderly, rfl, ?_, (List.append_nil _).symm⟩
    rwa [List.append_nil]
  | succ count ih =>
    rw [List.range'_succ, List.mapM_cons]
    refine (declareOne_backs orderly backed read).bind inferInstance ?_
    rintro p m₁ ⟨first, backed₁, listed₁⟩
    have size : r.size + 1 = size ⟨r.places ++ [p]⟩ := by simp [Registers.size]
    rw [size]
    refine (ih first.orderly backed₁
      (TypeRequest.request?_grows orderly.interned first.extension read)).bind inferInstance ?_
    rintro fresh m₂ ⟨second, length, backed₂, listed₂⟩
    refine .pure ⟨first.trans second, by simp [length], ?_, ?_⟩
    · simpa using backed₂
    · simp [listed₂, listed₁]

theorem reserve_backs (orderly : m.Orderly) (backed : r.Backed m) (n : Nat) :
    (r.reserve n).Ensures m fun r' m' => m.Develops m' ∧ r'.Backed m' ∧ r'.size = max r.size n ∧
      ∃ fresh, r'.places = r.places ++ fresh ∧ m'.varIds = m.varIds ++ fresh.map Place.id := by
  unfold reserve
  split
  · rename_i enough
    refine .pure ⟨.refl orderly, backed, (Nat.max_eq_left enough).symm, [], ?_, ?_⟩
    · exact (List.append_nil _).symm
    · exact (List.append_nil _).symm
  · rename_i short
    have declared : placeType.declare.Ensures m fun type m' => m.Develops m' ∧
        m'.request? type = some (.place placeType) ∧ m'.varIds = m.varIds := by
      intro fit
      refine ⟨Build.develops_of_keeps orderly placeType.declare fit, ?_, ?_⟩
      · exact (TypeRequest.declare_reads orderly.interned (.place placeType) fit).2
      · rw [Module.varIds, Keeps.eq Module.vars placeType.declare m]
        rfl
    refine declared.bind inferInstance ?_
    rintro type m₁ ⟨first, read, listed₁⟩
    refine (declareMany_backs first.orderly (backed.grows orderly.interned first.extension) read
      (n - r.size)).bind inferInstance ?_
    rintro fresh m₂ ⟨second, length, backed₂, listed₂⟩
    refine .pure ⟨first.trans second, backed₂, ?_, fresh, rfl, by rw [listed₂, listed₁]⟩
    simp only [size, List.length_append, length] at short ⊢
    omega

theorem reserve_of_short {m₁ : Module} {n : Nat} (short : r.size < n)
    (declared : placeType.declare m = (type, m₁)) :
    r.reserve n m = ((List.range' r.size (n - r.size)).mapM (declareOne type) >>= fun fresh =>
      pure ⟨r.places ++ fresh⟩) m₁ := by
  rw [reserve, if_neg (Nat.not_le.2 short)]
  exact Build.bind_of_run declared _

/-- Making room twice is making room for the larger number. -/
theorem reserve_reserve (interned : m.Interned) (r : Registers) (a b : Nat)
    (fit : ((r.reserve a >>= fun r' => r'.reserve b) m).2.IdsFit) :
    (r.reserve a >>= fun r' => r'.reserve b) m = r.reserve (max a b) m := by
  by_cases enough : a ≤ r.size
  · have kept : r.reserve a = pure r := if_pos enough
    rw [kept, pure_bind]
    by_cases more : b ≤ r.size
    · rw [reserve, if_pos more, reserve, if_pos (Nat.max_le.2 ⟨enough, more⟩)]
    · rw [Nat.max_eq_right (by omega)]
  · have short : r.size < a := Nat.lt_of_not_le enough
    cases declared : placeType.declare m with
    | mk type m₁ =>
    cases many : (List.range' r.size (a - r.size)).mapM (declareOne type) m₁ with
    | mk fresh m₂ =>
    have first : r.reserve a m = (⟨r.places ++ fresh⟩, m₂) :=
      (reserve_of_short short declared).trans (Build.bind_of_run many _)
    rw [Build.bind_of_run first] at fit ⊢
    have size : size ⟨r.places ++ fresh⟩ = a := by
      have length := (declareMany_returns type (List.range' r.size (a - r.size)) m₁).1
      rw [many, List.length_range'] at length
      simp only [Registers.size, List.length_append, length] at short ⊢
      omega
    by_cases more : b ≤ a
    · have kept : reserve ⟨r.places ++ fresh⟩ b = pure ⟨r.places ++ fresh⟩ := if_pos (by omega)
      rw [kept, Nat.max_eq_left more, first]
      rfl
    · -- The type of the registers was declared by the first call and is found by the second.
      have fit₂ : m₂.IdsFit :=
        fit.of_le (Monotone.issued_le (x := reserve ⟨r.places ++ fresh⟩ b) m₂)
      have fit₁ : m₁.IdsFit := by
        have le := Monotone.issued_le
          (x := (List.range' r.size (a - r.size)).mapM (declareOne type)) m₁
        rw [many] at le
        exact fit₂.of_le le
      obtain ⟨grown₁, read⟩ :=
        (TypeRequest.declare_reads interned (.place placeType)).of_run declared fit₁
      have grown₂ := (Traced.accumulates grown₁.interned _).of_run many fit₂
      have found : placeType.declare m₂ = (type, m₂) := TypeRequest.declare_hit grown₂.interned
        (TypeRequest.request?_grows grown₁.interned grown₂.extension read)
      have indices : List.range' r.size (b - r.size) =
          List.range' r.size (a - r.size) ++ List.range' a (b - a) := by
        have whole : b - r.size = a - r.size + (b - a) := by omega
        rw [whole, ← List.range'_append_1, Nat.add_sub_cancel' (Nat.le_of_lt short)]
      rw [Nat.max_eq_right (Nat.le_of_not_le more), reserve_of_short (by omega) declared, indices,
        List.mapM_append, bind_assoc, Build.bind_of_run many, reserve_of_short (by omega) found, size]
      simp only [bind_assoc, pure_bind, List.append_assoc]

end Registers

/-! What happens to the registers while an emitter is at work. -/

def Directive.reserved : Directive → Option Nat
  | .reserve count => some count
  | _ => none

namespace Operation

def named : Operation → List ResultId
  | .edit (.name target _) => [target]
  | _ => []

def reserved : Operation → Option Nat
  | .direct d => d.reserved
  | _ => none

def opens : Operation → Bool
  | .start => true
  | .startStage stage => stage = .vertex
  | _ => false

def within : Operation → Bool
  | .edit _ | .direct _ | .position => true
  | _ => false

end Operation

/-- There are as many registers as there were or as were asked for. The old ones stay, and each new
one comes with a variable. -/
structure Registers.Grows (r : Registers) (m : Module) (asked : Option Nat) (r' : Registers)
    (m' : Module) : Prop where
  develops : m.Develops m'
  backed : r'.Backed m'
  size : r'.size = max r.size (asked.getD 0)
  places : ∃ fresh, r'.places = r.places ++ fresh ∧
    (asked.isSome → m'.varIds = m.varIds ++ fresh.map Place.id)

theorem Registers.grows_of_develops {r : Registers} {m m' : Module} (orderly : m.Orderly)
    (backed : r.Backed m) (develops : m.Develops m') : r.Grows m none r m' where
  develops := develops
  backed := backed.grows orderly.interned develops.extension
  size := (Nat.max_eq_left (Nat.zero_le _)).symm
  places := ⟨[], (List.append_nil _).symm, fun asked => by cases asked⟩

theorem Registers.Grows.added {r r' : Registers} {m m' : Module} {asked : Option Nat}
    (grows : r.Grows m asked r' m') : ∃ fresh, r'.places = r.places ++ fresh ∧
      (if asked.isSome then m'.varIds.drop m.varIds.length else []) = fresh.map Place.id := by
  obtain ⟨fresh, places, listed⟩ := grows.places
  refine ⟨fresh, places, ?_⟩
  cases asked with
  | none =>
    have size := grows.size
    rw [Registers.size, Registers.size, places, List.length_append] at size
    have none : fresh = [] := by simpa using size
    rw [none]
    rfl
  | some count => simp [listed rfl]

section Working
variable {m : Module} (orderly : m.Orderly)
include orderly

theorem Edit.perform_develops {e : Edit} (named : m.Given (Operation.edit e).named) :
    e.perform.Ensures m fun _ m' => m.Develops m' := by
  cases e with
  | name target text =>
    have given : target.index ≤ m.issued := named target List.mem_cons_self
    refine (Build.name_develops orderly given text).bind inferInstance ?_
    exact fun _ _ grown => .pure grown
  | nameMember target member text =>
    refine (Build.nameMember_develops orderly target member text).bind inferInstance ?_
    exact fun _ _ grown => .pure grown
  | enableCapability capability =>
    refine (Build.develops_of_keeps orderly (Build.enableCapability capability)).bind inferInstance ?_
    exact fun _ _ grown => .pure grown
  | declareType d => exact .map (Build.develops_of_keeps orderly (Build.declareType d))
  | wordConstant value => exact .map (Build.develops_of_keeps orderly (Build.wordConstant value))
  | floatConstant value => exact .map (Build.develops_of_keeps orderly (Build.floatConstant value))
  | compositeConstant type parts =>
    exact .map (Build.develops_of_keeps orderly (Build.compositeConstant type parts))
  | _ => exact Build.develops_of_same_names orderly rfl

namespace Emitter
variable {e : Emitter}

theorem grows_of_keeps (backed : e.temps.Backed m) {action : Build (Reply × Emitter)} [Traced action]
    [Keeps Module.names action] (same : (action m).1.2 = e) : action.Ensures m fun answer m' =>
      answer.2.entry = e.entry ∧ e.temps.Grows m none answer.2.temps m' := by
  intro fit
  rw [same]
  exact ⟨rfl, Registers.grows_of_develops orderly backed (Build.develops_of_keeps orderly action fit)⟩

theorem perform_grows (backed : e.temps.Backed m) {d : Directive} {action : Build (Reply × Emitter)}
    (obeyed : e.perform d = .ok action) : action.Ensures m fun answer m' =>
      answer.2.entry = e.entry ∧ e.temps.Grows m d.reserved answer.2.temps m' := by
  cases performs_of_perform obeyed with
  | reserve count =>
    refine (Registers.reserve_backs orderly backed count).bind inferInstance ?_
    rintro temps m₁ ⟨develops, backed₁, size, fresh, places, listed⟩
    exact .pure ⟨rfl, develops, backed₁, size, fresh, places, fun _ => listed⟩
  | vertexBlock =>
    refine (VertexBlock.declare_develops orderly).bind inferInstance ?_
    intro block m₁ develops
    exact .pure ⟨rfl, Registers.grows_of_develops orderly backed develops⟩
  | _ => exact grows_of_keeps orderly backed rfl

end Emitter

theorem Generator.follow_grows {g : Generator} (backed : g.emitter.temps.Backed m) {d : Directive}
    {action : Build (Reply × Emitter)} (obeyed : g.emitter.perform d = .ok action) :
    (g.follow action).Ensures m fun g' m' => g'.emitter.entry = g.emitter.entry ∧
      g.emitter.temps.Grows m d.reserved g'.emitter.temps m' := by
  refine (Emitter.perform_grows orderly backed obeyed).bind inferInstance ?_
  exact fun _ _ grown => .pure grown

end Working

namespace Workshop

def temps? (w : Workshop) : Option Registers := w.generator.map fun g => g.emitter.temps

def namesBelow : Workshop → List Operation → Bool
  | _, [] => true
  | w, op :: ops => op.named.all (fun id => id.word < w.module.bound) &&
      (w.perform op).all fun next => namesBelow next ops

def added : Workshop → List Operation → List ResultId
  | _, [] => []
  | w, op :: ops =>
    match w.perform op with
    | none => []
    | some next =>
      (if op.reserved.isSome then next.module.varIds.drop w.module.varIds.length else []) ++
        next.added ops

structure Orderly (w : Workshop) : Prop where
  module : w.module.Orderly
  entry : ∀ g, w.generator = some g → g.emitter.entry.index ≤ w.module.issued
  backed : ∀ g, w.generator = some g → g.emitter.temps.Backed w.module

theorem orderly_empty : ({} : Workshop).Orderly where
  module := Module.orderly_empty
  entry g here := by cases here
  backed g here := by cases here

section Running
variable {w w' : Workshop} {op : Operation} {ops more : List Operation}

theorem orderly_begin {start : Build Generator} (started : start.Ensures w.module fun g m' =>
      m'.Orderly ∧ g.emitter.entry.index ≤ m'.issued ∧ g.emitter.temps.Backed m')
    (fit : (w.begin start).module.IdsFit) : (w.begin start).Orderly := by
  obtain ⟨orderly, entry, backed⟩ := started fit
  refine ⟨orderly, fun g here => ?_, fun g here => ?_⟩
  · obtain rfl := Option.some.inj here
    exact entry
  · obtain rfl := Option.some.inj here
    exact backed

theorem orderly_begin_new {start : Build Generator} (started : start.Ensures w.module fun g m' =>
      w.module.Develops m' ∧ g.emitter.entry.index ≤ m'.issued ∧ g.emitter.temps = {})
    (fit : (w.begin start).module.IdsFit) : (w.begin start).Orderly := by
  refine orderly_begin (started.imp ?_) fit
  rintro g m' ⟨grown, entry, empty⟩
  refine ⟨grown.orderly, entry, ?_⟩
  rw [empty]
  exact Registers.backed_empty m'

theorem Orderly.begin_follow (orderly : w.Orderly) {g : Generator} (here : w.generator = some g)
    {d : Directive} {action : Build (Reply × Emitter)} (obeyed : g.emitter.perform d = .ok action)
    (fit : (w.begin (g.follow action)).module.IdsFit) : (w.begin (g.follow action)).Orderly := by
  refine orderly_begin ?_ fit
  refine (Generator.follow_grows orderly.module (orderly.backed g here) obeyed).imp ?_
  rintro g' m' ⟨entry, grows⟩
  refine ⟨grows.develops.orderly, ?_, grows.backed⟩
  rw [entry]
  exact Nat.le_trans (orderly.entry g here) grows.develops.extension.issued

theorem Step.orderly (step : w.Step op w') (fit : w'.module.IdsFit)
    (named : w.module.Given op.named) (orderly : w.Orderly) : w'.Orderly := by
  cases step with
  | edit e =>
    have grown : w.module.Develops (w.module.edit e) := e.perform_develops orderly.module named fit
    refine ⟨grown.orderly, fun g here => ?_, fun g here => ?_⟩
    · exact Nat.le_trans (orderly.entry g here) grown.extension.issued
    · exact (orderly.backed g here).grows orderly.module.interned grown.extension
  | start => exact orderly_begin_new (Generator.start_develops orderly.module) fit
  | startStage found => exact orderly_begin_new (Generator.forStage_develops orderly.module found) fit
  | unsupported refused => exact orderly
  | direct here obeyed => exact orderly.begin_follow here obeyed fit
  | position here own obeyed => exact orderly.begin_follow here obeyed fit
  | @finish g output here own =>
    have grown := VertexEmitter.finish_develops orderly.module (e := ⟨g.emitter, output⟩)
      (orderly.entry g here) fit
    refine ⟨grown.orderly, fun g gone => ?_, fun g gone => ?_⟩
    · cases gone
    · cases gone

theorem Step.opens (step : w.Step op w') (fit : w'.module.IdsFit) (orderly : w.Orderly)
    (opens : op.opens) : ∃ g, w'.generator = some g ∧ g.emitter.temps = {} := by
  cases step with
  | start => exact ⟨_, rfl, (Generator.start_develops orderly.module fit).2.2⟩
  | startStage found => exact ⟨_, rfl, (Generator.forStage_develops orderly.module found fit).2.2⟩
  | @unsupported stage error refused =>
    obtain rfl : stage = .vertex := of_decide_eq_true opens
    cases refused
  | _ => cases opens

theorem Step.grows (step : w.Step op w') (fit : w'.module.IdsFit)
    (named : w.module.Given op.named) (orderly : w.Orderly) (within : op.within) {g : Generator}
    (here : w.generator = some g) : ∃ g', w'.generator = some g' ∧
      g.emitter.temps.Grows w.module op.reserved g'.emitter.temps w'.module := by
  have backed := orderly.backed g here
  cases step with
  | edit e =>
    exact ⟨g, here, Registers.grows_of_develops orderly.module backed
      (e.perform_develops orderly.module named fit)⟩
  | direct found obeyed =>
    obtain rfl := Option.some.inj (here.symm.trans found)
    exact ⟨_, rfl, (Generator.follow_grows orderly.module backed obeyed fit).2⟩
  | position found own obeyed =>
    obtain rfl := Option.some.inj (here.symm.trans found)
    exact ⟨_, rfl, (Generator.follow_grows orderly.module backed obeyed fit).2⟩
  | _ => cases within

theorem namesBelow_cons {next : Workshop} (first : w.perform op = some next)
    (fit : w.module.IdsFit) (named : w.namesBelow (op :: ops)) :
    w.module.Given op.named ∧ next.namesBelow ops := by
  simp only [namesBelow, Bool.and_eq_true, List.all_eq_true, decide_eq_true_eq, first,
    Option.all_some] at named
  exact ⟨fun id member => (Module.lt_bound_iff fit).1 (named.1 id member), named.2⟩

theorem added_cons {next : Workshop} (first : w.perform op = some next) :
    w.added (op :: ops) = (if op.reserved.isSome then
      next.module.varIds.drop w.module.varIds.length else []) ++ next.added ops := by
  rw [added, first]

theorem performAll_append (done : w.performAll ops = some w') :
    w.performAll (ops ++ more) = w'.performAll more := by
  induction ops generalizing w with
  | nil =>
    cases done
    rfl
  | cons op ops ih =>
    obtain ⟨next, first, rest⟩ := Option.bind_eq_some_iff.1 done
    rw [List.cons_append, performAll, first]
    exact ih rest

theorem namesBelow_append (done : w.performAll ops = some w')
    (named : w.namesBelow (ops ++ more)) : w.namesBelow ops ∧ w'.namesBelow more := by
  induction ops generalizing w with
  | nil =>
    cases done
    exact ⟨rfl, named⟩
  | cons op ops ih =>
    obtain ⟨next, first, rest⟩ := Option.bind_eq_some_iff.1 done
    simp only [List.cons_append, namesBelow, first, Option.all_some, Bool.and_eq_true] at named ⊢
    obtain ⟨here, later⟩ := ih rest named.2
    exact ⟨⟨named.1, here⟩, later⟩

theorem performAll_orderly (done : w.performAll ops = some w') (fit : w'.module.IdsFit)
    (named : w.namesBelow ops) (orderly : w.Orderly) : w'.Orderly := by
  induction ops generalizing w with
  | nil =>
    cases done
    exact orderly
  | cons op ops ih =>
    obtain ⟨next, first, rest⟩ := Option.bind_eq_some_iff.1 done
    have fitNext : next.module.IdsFit := fit.of_le (issued_le_performAll rest)
    obtain ⟨here, later⟩ :=
      namesBelow_cons first (fit.of_le (issued_le_performAll done)) named
    exact ih rest later ((step_of_perform first).orderly fitNext here orderly)

/-- In a whole run the registers grow to the largest number asked for, and each comes with one
variable. -/
theorem performAll_grows (done : w.performAll ops = some w') (fit : w'.module.IdsFit)
    (named : w.namesBelow ops) (orderly : w.Orderly) (within : ∀ op ∈ ops, op.within)
    {g : Generator} (here : w.generator = some g) :
    ∃ g' fresh, w'.generator = some g' ∧
      g'.emitter.temps.places = g.emitter.temps.places ++ fresh ∧
      g'.emitter.temps.size =
        (ops.filterMap Operation.reserved).foldl max g.emitter.temps.size ∧
      w.added ops = fresh.map Place.id := by
  induction ops generalizing w g with
  | nil =>
    cases done
    exact ⟨g, [], here, (List.append_nil _).symm, rfl, rfl⟩
  | cons op ops ih =>
    obtain ⟨next, first, rest⟩ := Option.bind_eq_some_iff.1 done
    have fitNext : next.module.IdsFit := fit.of_le (issued_le_performAll rest)
    obtain ⟨namedHere, namedLater⟩ :=
      namesBelow_cons first (fit.of_le (issued_le_performAll done)) named
    have step := step_of_perform first
    obtain ⟨g₁, here₁, grows⟩ :=
      step.grows fitNext namedHere orderly (within op List.mem_cons_self) here
    obtain ⟨g₂, later, here₂, places₂, size₂, added₂⟩ := ih rest namedLater
      (step.orderly fitNext namedHere orderly)
      (fun op member => within op (List.mem_cons_of_mem _ member)) here₁
    obtain ⟨fresh, places₁, added₁⟩ := grows.added
    refine ⟨g₂, fresh ++ later, here₂, by rw [places₂, places₁, List.append_assoc], ?_, ?_⟩
    · rw [size₂, grows.size]
      cases asked : op.reserved with
      | none => simp [asked]
      | some count => simp [asked]
    · rw [added_cons first, added₁, added₂, List.map_append]

theorem perform_reserve {g : Generator} (here : w.generator = some g) {n : Nat} {r : Registers}
    {m' : Module} (run : g.emitter.temps.reserve n w.module = (r, m')) :
    w.perform (.direct (.reserve n)) =
      some ⟨m', some { g with emitter := { g.emitter with temps := r } }⟩ := by
  have followed := Build.bind_of_run (Build.bind_of_run run fun temps => pure
    (Reply.count temps.size, { g.emitter with temps := temps })) fun answer =>
      pure { g with emitter := answer.2 }
  have done : w.direct (.reserve n) = some (w.begin (g.follow do
      let temps ← g.emitter.temps.reserve n
      return (.count temps.size, { g.emitter with temps := temps }))) := by
    rw [direct, here]
    rfl
  refine done.trans (congrArg some ?_)
  rw [begin, Generator.follow, followed]
  rfl

theorem performAll_reserve_twice (interned : w.module.Interned) {g : Generator}
    (here : w.generator = some g) (a b : Nat) :
    ∃ w', w.performAll [.direct (.reserve a), .direct (.reserve b)] = some w' ∧
      (w'.module.IdsFit → w.performAll [.direct (.reserve (max a b))] = some w') := by
  cases first : g.emitter.temps.reserve a w.module with
  | mk r₁ m₁ =>
  cases second : r₁.reserve b m₁ with
  | mk r₂ m₂ =>
  have both : (g.emitter.temps.reserve a >>= fun r => r.reserve b) w.module = (r₂, m₂) :=
    (Build.bind_of_run first _).trans second
  refine ⟨⟨m₂, some { g with emitter := { g.emitter with temps := r₂ } }⟩, ?_, fun fit => ?_⟩
  · rw [performAll, perform_reserve here first]
    have again := perform_reserve rfl second
      (w := ⟨m₁, some { g with emitter := { g.emitter with temps := r₁ } }⟩)
    exact congrArg (· >>= fun next => next.performAll []) again
  · have once := Registers.reserve_reserve interned g.emitter.temps a b (by rw [both]; exact fit)
    rw [both] at once
    rw [performAll, perform_reserve here once.symm]
    rfl

end Running

/-- From the time that an emitter begins its work, on whatever module, there are as many registers as
the largest number asked for. They can be got by their indices and stay the same, whatever else is
done; each has a variable of its own; and asking for registers adds these variables and no others. -/
theorem registers_grow_to_largest {before life later : List Operation} {opening : Operation}
    {w₀ w₁ w₂ w₃ : Workshop} (reached : performAll {} before = some w₀) (opens : opening.opens)
    (opened : w₀.perform opening = some w₁) (lived : w₁.performAll life = some w₂)
    (went : w₂.performAll later = some w₃) (within : ∀ op ∈ life ++ later, op.within)
    (named : namesBelow {} (before ++ opening :: (life ++ later))) (fit : w₃.module.IdsFit) :
    ∃ r₂ r₃, w₂.temps? = some r₂ ∧ w₃.temps? = some r₃ ∧
      r₂.size = (life.filterMap Operation.reserved).foldl max 0 ∧ r₂.size ≤ r₃.size ∧
      (∀ i, (∃ p, r₂.get i = .ok p) ↔ i < r₂.size) ∧
      (∀ i p, r₂.get i = .ok p → r₃.get i = .ok p) ∧
      r₃.Backed w₃.module ∧ w₁.added (life ++ later) = r₃.places.map Place.id ∧
      ∀ a b, ∃ w', w₂.performAll [.direct (.reserve a), .direct (.reserve b)] = some w' ∧
        (w'.module.IdsFit → w₂.performAll [.direct (.reserve (max a b))] = some w') := by
  have whole : w₁.performAll (life ++ later) = some w₃ := (performAll_append lived).trans went
  have fit₂ : w₂.module.IdsFit := fit.of_le (issued_le_performAll went)
  have fit₁ : w₁.module.IdsFit := fit.of_le (issued_le_performAll whole)
  have fit₀ : w₀.module.IdsFit := by
    have begun : w₀.performAll [opening] = some w₁ := by
      rw [performAll, opened]
      rfl
    exact fit₁.of_le (issued_le_performAll begun)
  obtain ⟨named₀, rest⟩ := namesBelow_append reached named
  obtain ⟨namedHere, namedWhole⟩ := namesBelow_cons opened fit₀ rest
  obtain ⟨named₁, named₂⟩ := namesBelow_append lived namedWhole
  have orderly₀ := performAll_orderly reached fit₀ named₀ orderly_empty
  have orderly₁ := (step_of_perform opened).orderly fit₁ namedHere orderly₀
  have orderly₂ := performAll_orderly lived fit₂ named₁ orderly₁
  obtain ⟨g₁, here₁, empty⟩ := (step_of_perform opened).opens fit₁ orderly₀ opens
  obtain ⟨g₂, -, here₂, -, size₂, -⟩ := performAll_grows lived fit₂ named₁ orderly₁
    (fun op member => within op (List.mem_append_left _ member)) here₁
  obtain ⟨g₃, fresh, here₃, places₃, -, -⟩ := performAll_grows went fit named₂ orderly₂
    (fun op member => within op (List.mem_append_right _ member)) here₂
  obtain ⟨g, all, here, places, -, added⟩ :=
    performAll_grows whole fit namedWhole orderly₁ within here₁
  obtain rfl := Option.some.inj (here.symm.trans here₃)
  rw [empty] at size₂ places
  refine ⟨g₂.emitter.temps, g.emitter.temps, by rw [temps?, here₂]; rfl, by rw [temps?, here₃]; rfl,
    size₂, ?_, ?_, ?_, (performAll_orderly went fit named₂ orderly₂).backed g here₃, ?_,
    performAll_reserve_twice orderly₂.module.interned here₂⟩
  · rw [Registers.size, Registers.size, places₃, List.length_append]
    exact Nat.le_add_right _ _
  · exact fun i => Registers.exists_get_iff
  · intro i p found
    rw [Registers.get_eq_ok] at found ⊢
    obtain ⟨inside, -⟩ := List.getElem?_eq_some_iff.1 found
    rw [places₃, List.getElem?_append_left inside, found]
  · rw [added, places]
    rfl

def earlierWork : List Operation :=
  [.start, .direct (.reserve 2), .edit (.declareType (.pointer ⟨40⟩ .privateStorage)),
    .edit (.name ⟨3⟩ "four")]

def growingWork : List Operation :=
  [.direct (.reserve 2), .edit (.declareVariable ⟨⟨50⟩, .output⟩), .direct (.reserve 1), .position]

def laterWork : List Operation := [.edit (.name ⟨1⟩ "renamed"), .direct (.reserve 4)]

theorem growingWork_registers :
    ∃ w₀ w₁ w₂ w₃, performAll {} earlierWork = some w₀ ∧
      w₀.perform (.startStage .vertex) = some w₁ ∧ w₁.performAll growingWork = some w₂ ∧
      w₂.performAll laterWork = some w₃ ∧ w₃.module.IdsFit ∧
      ∃ r₂ r₃, w₂.temps? = some r₂ ∧ w₃.temps? = some r₃ ∧ r₂.size = 2 ∧ r₃.Backed w₃.module ∧
        w₁.added (growingWork ++ laterWork) = r₃.places.map Place.id := by
  have runs : (performAll {} earlierWork).any (fun w₀ =>
      (w₀.perform (.startStage .vertex)).any fun w₁ => (w₁.performAll growingWork).any fun w₂ =>
        (w₂.performAll laterWork).any fun w₃ => decide w₃.module.IdsFit) = true := by
    decide +kernel
  obtain ⟨w₀, reached, rest₀⟩ := (Option.any_eq_true _ _).1 runs
  obtain ⟨w₁, opened, rest₁⟩ := (Option.any_eq_true _ _).1 rest₀
  obtain ⟨w₂, lived, rest₂⟩ := (Option.any_eq_true _ _).1 rest₁
  obtain ⟨w₃, went, fit⟩ := (Option.any_eq_true _ _).1 rest₂
  have within : ∀ op ∈ growingWork ++ laterWork, op.within := by decide
  obtain ⟨r₂, r₃, here₂, here₃, size, -, -, -, backed, added, -⟩ := registers_grow_to_largest reached
    rfl opened lived went within (by decide +kernel) (of_decide_eq_true fit)
  exact ⟨w₀, w₁, w₂, w₃, reached, opened, lived, went, of_decide_eq_true fit, r₂, r₃, here₂, here₃,
    size, backed, added⟩

end Workshop
end Shader
