import Shader.Proofs.Building
import Shader.Proofs.Typing

/-!
Type soundness of the machine. A function body is checked against the declarations alone; a body that
passes runs to its end, and everything the machine holds along the way has its declared type.

Nothing is asked of the type declarations. That no type contains itself follows, for the variables,
from the machine's having started, and a pointer type inside another type has no contents.
-/

namespace Shader
namespace Module

abbrev Scope := List (ResultId × ResultId)

/-- The type of an id that a body may use: a constant, a variable, or an earlier result. -/
def operandType? (m : Module) (scope : Scope) (id : ResultId) : Option ResultId :=
  match m.constDecl? id, m.varDecl? id with
  | some d, _ => some d.type
  | none, some d => some d.pointerType
  | none, none => assoc? id scope

def index? (m : Module) (id : ResultId) : Option UInt32 :=
  ((m.constDecl? id).bind ConstDecl.bits?).map UInt64.toUInt32

inductive TypedInstruction (m : Module) (scope : Scope) :
    Instruction → Option (ResultId × ResultId) → Prop where
  | label {id : ResultId} : TypedInstruction m scope ⟨.opLabel, some id, none, []⟩ none
  | load {id pointer pointerType type : ResultId}
      (base : m.operandType? scope pointer = some pointerType)
      (pointee : m.pointee? pointerType = some type) :
      TypedInstruction m scope ⟨.opLoad, some id, some type, [.ref pointer]⟩ (some (id, type))
  | store {pointer object pointerType type : ResultId}
      (base : m.operandType? scope pointer = some pointerType)
      (pointee : m.pointee? pointerType = some type)
      (stored : m.operandType? scope object = some type) :
      TypedInstruction m scope ⟨.opStore, none, none, [.ref pointer, .ref object]⟩ none
  | accessChain {id type pointer pointerType root part : ResultId} {ids : List ResultId}
      {path : List UInt32} (base : m.operandType? scope pointer = some pointerType)
      (pointee : m.pointee? pointerType = some root)
      (indices : List.Forall₂ (fun id index => m.index? id = some index) ids path)
      (reaches : m.typeAt? root path = some part) (result : m.pointee? type = some part) :
      TypedInstruction m scope ⟨.opAccessChain, some id, some type,
        .ref pointer :: ids.map .ref⟩ (some (id, type))
  | compositeInsert {id type object composite part : ResultId} {types : List ResultId}
      {path : List UInt32} (whole : m.operandType? scope composite = some type)
      (layout : m.partTypes? type = some types) (reaches : m.typeAt? type path = some part)
      (inserted : m.operandType? scope object = some part) :
      TypedInstruction m scope ⟨.opCompositeInsert, some id, some type,
        .ref object :: .ref composite :: path.map .literal⟩ (some (id, type))
  | vectorShuffle {id type first second firstType secondType : ResultId}
      {as bs types : List ResultId} {selectors : List UInt32}
      (one : m.operandType? scope first = some firstType)
      (two : m.operandType? scope second = some secondType)
      (firstLayout : m.partTypes? firstType = some as)
      (secondLayout : m.partTypes? secondType = some bs)
      (layout : m.partTypes? type = some types)
      (lanes : List.Forall₂ (fun k t => (as ++ bs)[k.toNat]? = some t) selectors types) :
      TypedInstruction m scope ⟨.opVectorShuffle, some id, some type,
        .ref first :: .ref second :: selectors.map .literal⟩ (some (id, type))

/-- A body is well typed from one scope to another: each instruction is, and each result is new. -/
inductive TypedBody (m : Module) : Scope → List Instruction → Scope → Prop where
  | nil {scope : Scope} : TypedBody m scope [] scope
  | cons {scope final : Scope} {i : Instruction} {is : List Instruction}
      {added : Option (ResultId × ResultId)} (typed : m.TypedInstruction scope i added)
      (new : ∀ r ∈ added, m.operandType? scope r.1 = none)
      (rest : TypedBody m (added.toList ++ scope) is final) : TypedBody m scope (i :: is) final

def TypedConstants (m : Module) : Prop :=
  ∀ id type parts, m.constDecl? id = some (.composite type parts) → ∃ types,
    m.partTypes? type = some types ∧
      List.Forall₂ (fun t p => ∃ d, m.constDecl? p = some d ∧ d.type = t) types parts

/-- A value of a type: contents, or for a pointer type the address of a cell of what it points to. -/
inductive HasType (m : Module) (type : ResultId) : Contents → Prop where
  | contents {c : Contents} (holds : m.Holds type c) : HasType m type c
  | address {var root target : ResultId} {d : VarDecl} {path : List UInt32}
      (known : m.varDecl? var = some d) (points : m.pointee? d.pointerType = some root)
      (reaches : m.typeAt? root path = some target) (result : m.pointee? type = some target) :
      HasType m type (.address var path)

theorem operandType?_eq_none {m : Module} {scope : Scope} {id : ResultId}
    (unknown : m.operandType? scope id = none) :
    m.constDecl? id = none ∧ m.varDecl? id = none ∧ assoc? id scope = none := by
  unfold operandType? at unknown
  split at unknown
  · cases unknown
  · cases unknown
  · rename_i constant var
    exact ⟨constant, var, unknown⟩

theorem pointee?_of_layout {m : Module} {type : ResultId} {types : List ResultId}
    (layout : m.partTypes? type = some types) : m.pointee? type = none := by
  unfold pointee?
  unfold partTypes? at layout
  split at layout <;> simp_all

theorem selected_lanes {m : Module} {ts types : List ResultId} {cs : List Contents}
    {selectors : List UInt32} (all : List.Forall₂ m.Holds ts cs)
    (lanes : List.Forall₂ (fun k t => ts[k.toNat]? = some t) selectors types) :
    ∃ chosen, List.Forall₂ (fun k c => cs[k.toNat]? = some c) selectors chosen ∧
      List.Forall₂ m.Holds types chosen := by
  induction lanes with
  | nil => exact ⟨[], .nil, .nil⟩
  | cons first others ih =>
    obtain ⟨c, found, holds⟩ := forall₂_getElem? all first
    obtain ⟨chosen, rest, typed⟩ := ih
    exact ⟨c :: chosen, .cons found rest, .cons holds typed⟩

end Module

/-- Everything that the machine holds has its declared type. -/
structure Machine.Typed (s : Machine) (m : Module) (scope : Module.Scope) : Prop where
  vars : ∀ id d, m.varDecl? id = some d → ∃ type c, m.pointee? d.pointerType = some type ∧
    s.memory.get? id = some c ∧ m.Holds type c
  memory : ∀ id c, s.memory.get? id = some c → ∃ d, m.varDecl? id = some d
  constants : ∀ id d, m.constDecl? id = some d → ∃ c, s.values.get? id = some c ∧ m.Holds d.type c
  numbers : ∀ id d bits, m.constDecl? id = some d → d.bits? = some bits →
    s.values.get? id = some (.scalar bits)
  results : ∀ id type, assoc? id scope = some type → m.constDecl? id = none ∧ m.varDecl? id = none ∧
    ∃ c, s.values.get? id = some c ∧ m.HasType type c

namespace Machine
open Shader.Module (Scope)
variable {m : Module} {scope : Scope} {s : Machine} {id type target : ResultId}

theorem Typed.value (typed : s.Typed m scope) (known : m.operandType? scope id = some type)
    (data : m.pointee? type = none) : ∃ c, s.values.get? id = some c ∧ m.Holds type c := by
  unfold Module.operandType? at known
  split at known
  · rename_i d constant
    cases known
    exact typed.constants id d constant
  · rename_i d _ var
    cases known
    obtain ⟨root, c, points, -⟩ := typed.vars id d var
    rw [points] at data
    cases data
  · obtain ⟨-, -, c, found, has⟩ := typed.results id type known
    cases has with
    | contents holds => exact ⟨c, found, holds⟩
    | address _ _ _ result =>
      rw [result] at data
      cases data

theorem Typed.cell (typed : s.Typed m scope) (known : m.operandType? scope id = some type)
    (points : m.pointee? type = some target) : ∃ var path root c, s.cell id = .ok (var, path) ∧
      (∃ d, m.varDecl? var = some d ∧ m.pointee? d.pointerType = some root) ∧
      m.typeAt? root path = some target ∧ s.memory.get? var = some c ∧ m.Holds root c := by
  unfold Module.operandType? at known
  unfold Machine.cell Table.contains
  split at known
  · rename_i d constant
    cases known
    obtain ⟨c, -, holds⟩ := typed.constants id d constant
    rw [holds.pointee?_eq_none] at points
    cases points
  · rename_i d _ var
    cases known
    obtain ⟨root, c, same, found, holds⟩ := typed.vars id d var
    rw [points] at same
    cases same
    exact ⟨id, [], target, c, by simp [found], ⟨d, var, points⟩, rfl, found, holds⟩
  · rename_i noVar
    obtain ⟨-, -, c, found, has⟩ := typed.results id type known
    have notInMemory : s.memory.get? id = none := by
      cases there : s.memory.get? id with
      | none => rfl
      | some x =>
        obtain ⟨d, var⟩ := typed.memory id x there
        rw [noVar] at var
        cases var
    cases has with
    | contents holds =>
      rw [holds.pointee?_eq_none] at points
      cases points
    | @address var root reached d path known rootType reaches result =>
      rw [points] at result
      cases result
      obtain ⟨t, x, same, inMemory, holds⟩ := typed.vars var d known
      rw [rootType] at same
      cases same
      exact ⟨var, path, root, x, by simp [notInMemory, found], ⟨d, known, rootType⟩, reaches,
        inMemory, holds⟩

theorem Typed.index (typed : s.Typed m scope) {index : UInt32} (known : m.index? id = some index) :
    s.index id = .ok index := by
  unfold Module.index? at known
  simp only [Option.map_eq_some_iff, Option.bind_eq_some_iff] at known
  obtain ⟨bits, ⟨d, constant, scalar⟩, rfl⟩ := known
  exact bind_eq_ok.2 ⟨.scalar bits, value_of_get (typed.numbers id d bits constant scalar), rfl⟩

theorem Typed.indices (typed : s.Typed m scope) {ids : List ResultId} {path : List UInt32}
    (all : List.Forall₂ (fun id index => m.index? id = some index) ids path) (opcode : Opcode)
    (position : Nat) : s.indices opcode position (ids.map .ref) = .ok path := by
  induction all generalizing position with
  | nil => rfl
  | cons first others ih =>
    refine bind_eq_ok.2 ⟨_, typed.index first, ?_⟩
    exact bind_eq_ok.2 ⟨_, ih (position + 1), rfl⟩

theorem Typed.defining (typed : s.Typed m scope) (new : m.operandType? scope id = none)
    {c : Contents} (has : m.HasType type c) : (s.defining id c).Typed m ((id, type) :: scope) := by
  obtain ⟨noConstant, noVar, -⟩ := Module.operandType?_eq_none new
  have kept : ∀ other d, m.constDecl? other = some d →
      (s.defining id c).values.get? other = s.values.get? other := by
    intro other d known
    refine Table.get?_insert_of_ne _ _ ?_
    rintro rfl
    rw [noConstant] at known
    cases known
  refine ⟨typed.vars, typed.memory, ?_, ?_, ?_⟩
  · intro other d known
    rw [kept other d known]
    exact typed.constants other d known
  · intro other d bits known scalar
    rw [kept other d known]
    exact typed.numbers other d bits known scalar
  · intro other t found
    by_cases same : other = id
    · subst same
      simp only [assoc?, ↓reduceIte, Option.some.injEq] at found
      subst found
      exact ⟨noConstant, noVar, c, Table.get?_insert_self .., has⟩
    · simp only [assoc?, same, ↓reduceIte] at found
      obtain ⟨one, two, x, value, typedValue⟩ := typed.results other t found
      refine ⟨one, two, x, ?_, typedValue⟩
      rw [Machine.defining, Table.get?_insert_of_ne _ _ same, value]

theorem Typed.storing (typed : s.Typed m scope) {var root : ResultId} {d : VarDecl} {c : Contents}
    (known : m.varDecl? var = some d) (points : m.pointee? d.pointerType = some root)
    (holds : m.Holds root c) : (s.storing var c).Typed m scope := by
  refine ⟨?_, ?_, typed.constants, typed.numbers, typed.results⟩
  · intro other e there
    by_cases same : other = var
    · subst same
      rw [known] at there
      cases there
      exact ⟨root, c, points, Table.get?_insert_self .., holds⟩
    · obtain ⟨t, x, pointee, found, typedContents⟩ := typed.vars other e there
      refine ⟨t, x, pointee, ?_, typedContents⟩
      rw [Machine.storing, Table.get?_insert_of_ne _ _ same, found]
  · intro other x found
    by_cases same : other = var
    · exact ⟨d, same ▸ known⟩
    · rw [Machine.storing, Table.get?_insert_of_ne _ _ same] at found
      exact typed.memory other x found

/-- Progress and preservation: a well-typed instruction succeeds and leaves the machine typed. -/
theorem Typed.step (typed : s.Typed m scope) {i : Instruction} {added : Option (ResultId × ResultId)}
    (checks : m.TypedInstruction scope i added)
    (new : ∀ r ∈ added, m.operandType? scope r.1 = none) :
    ∃ t, s.step i = .ok t ∧ t.executed = s.executed + 1 ∧ t.Typed m (added.toList ++ scope) := by
  cases checks with
  | label =>
    exact ⟨_, rfl, rfl, ⟨typed.vars, typed.memory, typed.constants, typed.numbers, typed.results⟩⟩
  | load base pointee =>
    obtain ⟨var, path, root, c, place, -, reaches, found, holds⟩ := typed.cell base pointee
    obtain ⟨cell, read, has⟩ := holds.read reaches
    exact ⟨_, step_load place found read, rfl, typed.defining (new _ rfl) (.contents has)⟩
  | store base pointee stored =>
    obtain ⟨var, path, root, c, place, ⟨d, known, points⟩, reaches, found, holds⟩ :=
      typed.cell base pointee
    obtain ⟨old, -, oldHolds⟩ := holds.read reaches
    obtain ⟨x, object, has⟩ := typed.value stored oldHolds.pointee?_eq_none
    obtain ⟨changed, written, whole⟩ := holds.write reaches has
    exact ⟨_, step_store place object found written, rfl, typed.storing known points whole⟩
  | accessChain base pointee indices reaches result =>
    obtain ⟨var, path, root, c, place, ⟨d, known, points⟩, start, -, -⟩ := typed.cell base pointee
    refine ⟨_, step_accessChain place (typed.indices indices _ _), rfl, ?_⟩
    refine typed.defining (new _ rfl) (.address known points ?_ result)
    rw [Module.typeAt?_append, start]
    exact reaches
  | compositeInsert whole layout reaches inserted =>
    obtain ⟨c, found, holds⟩ := typed.value whole (Module.pointee?_of_layout layout)
    obtain ⟨old, -, oldHolds⟩ := holds.read reaches
    obtain ⟨x, object, has⟩ := typed.value inserted oldHolds.pointee?_eq_none
    obtain ⟨changed, written, result⟩ := holds.write reaches has
    exact ⟨_, step_compositeInsert object found written, rfl,
      typed.defining (new _ rfl) (.contents result)⟩
  | vectorShuffle one two firstLayout secondLayout layout lanes =>
    obtain ⟨c, firstFound, firstHolds⟩ := typed.value one (Module.pointee?_of_layout firstLayout)
    obtain ⟨cs, rfl, firstParts⟩ := firstHolds.parts firstLayout
    obtain ⟨d, secondFound, secondHolds⟩ := typed.value two (Module.pointee?_of_layout secondLayout)
    obtain ⟨ds, rfl, secondParts⟩ := secondHolds.parts secondLayout
    obtain ⟨chosen, selected, result⟩ :=
      Module.selected_lanes (List.rel_append firstParts secondParts) lanes
    exact ⟨_, step_vectorShuffle firstFound secondFound selected, rfl,
      typed.defining (new _ rfl) (.contents (.of_parts layout result))⟩

theorem Typed.execute (typed : s.Typed m scope) {is : List Instruction} {final : Scope}
    (checks : m.TypedBody scope is final) :
    ∃ t, s.execute is = .ok t ∧ t.executed = s.executed + is.length ∧ t.Typed m final := by
  induction checks generalizing s with
  | nil => exact ⟨s, rfl, rfl, typed⟩
  | cons first new rest ih =>
    obtain ⟨u, step, counted, typed⟩ := typed.step first new
    obtain ⟨t, run, total, final⟩ := ih typed
    refine ⟨t, bind_eq_ok.2 ⟨u, step, run⟩, ?_, final⟩
    rw [total, counted, List.length_cons]
    omega

def HoldsConstants (s : Machine) (m : Module) : Prop :=
  ∀ id c, s.values.get? id = some c → ∃ d, m.constDecl? id = some d ∧ m.Holds d.type c

theorem HoldsConstants.parts (before : s.HoldsConstants m) {types parts : List ResultId}
    {cs : List Contents}
    (prescribed : List.Forall₂ (fun t p => ∃ d, m.constDecl? p = some d ∧ d.type = t) types parts)
    (values : List.Forall₂ (fun p c => s.value p = .ok c) parts cs) :
    List.Forall₂ m.Holds types cs := by
  induction prescribed generalizing cs with
  | nil =>
    cases values
    exact .nil
  | cons first others ih =>
    cases values with
    | cons one rest =>
      obtain ⟨d, known, rfl⟩ := first
      refine .cons ?_ (ih rest)
      unfold Machine.value at one
      split at one
      · rename_i there
        cases one
        obtain ⟨e, same, holds⟩ := before _ _ there
        rw [known] at same
        cases same
        exact holds
      · cases one

theorem HoldsConstants.constant (before : s.HoldsConstants m) (constants : m.TypedConstants)
    {d : ConstDecl} {c : Contents} (known : m.constDecl? id = some d) (number : m.HasNumberType d)
    (value : s.constant d = .ok c) : m.Holds d.type c := by
  cases d with
  | word type bits =>
    cases value
    have int : m.typeDecl? type = some (.int 32 false) := number
    exact .number (by simp [Module.isNumber, ConstDecl.type, int]) _
  | float type bits =>
    cases value
    have float : m.typeDecl? type = some (.float 32) := number
    exact .number (by simp [Module.isNumber, ConstDecl.type, float]) _
  | composite type parts =>
    obtain ⟨types, layout, prescribed⟩ := constants id type parts known
    obtain ⟨cs, found, same⟩ := bind_eq_ok.1 value
    cases same
    exact .of_parts layout (before.parts prescribed (mapM_eq_ok.1 found))

theorem HoldsConstants.declare {t : Machine} {i : Instruction} (before : s.HoldsConstants m)
    (co : m.Coherent) (constants : m.TypedConstants) (declares : m.Declares id i)
    (run : declare m s i = .ok t) : t.HoldsConstants m := by
  rcases declare_cases declares run with ⟨d, -, rfl⟩ | ⟨d, c, -, known, value, rfl⟩ |
    ⟨d, pointee, storage, c, -, -, -, -, rfl⟩
  · exact before
  · intro other x found
    by_cases same : other = id
    · subst same
      rw [Machine.apply, Table.get?_insert_self] at found
      cases found
      exact ⟨d, known, before.constant constants known (co.numberType other d known) value⟩
    · rw [Machine.apply, Table.get?_insert_of_ne _ _ same] at found
      exact before other x found
  · exact before

theorem holdsConstants_of_boot (co : m.Coherent) (constants : m.TypedConstants)
    (boots : boot m = .ok s) : s.HoldsConstants m := by
  have run : ∀ (is : List Instruction) (u : Machine), is ⊆ m.globals → u.HoldsConstants m →
      is.foldlM (Machine.declare m) u = .ok s → s.HoldsConstants m := by
    intro is
    induction is with
    | nil =>
      intro u _ holds done
      cases done
      exact holds
    | cons i is ih =>
      intro u members holds done
      obtain ⟨v, first, rest⟩ := bind_eq_ok.1 done
      obtain ⟨id, declares⟩ := co.declared i (members List.mem_cons_self)
      refine ih v (fun j there => members (List.mem_cons_of_mem _ there)) ?_ rest
      exact holds.declare co constants declares first
  refine run m.globals {} (fun _ member => member) ?_ boots
  intro id c found
  cases found

theorem typed_of_boot (co : m.Coherent) (constants : m.TypedConstants) (boots : boot m = .ok s) :
    s.Typed m [] where
  vars id d known := by
    obtain ⟨pointee, storage, c, typed, zero, found⟩ := boot_variable co boots known
    exact ⟨pointee, c, by simp [Module.pointee?, typed], found, Module.zeroWithin_holds zero⟩
  memory id c found := boot_memory co boots found
  constants id d known := by
    obtain ⟨c, found, -⟩ := boot_constant co boots known
    obtain ⟨e, same, holds⟩ := holdsConstants_of_boot co constants boots id c found
    rw [known] at same
    cases same
    exact ⟨c, found, holds⟩
  numbers id d bits known scalar := by
    obtain ⟨c, found, value⟩ := boot_constant co boots known
    rw [found]
    cases d with
    | word type word =>
      cases value
      exact congrArg (some ∘ Contents.scalar) (Option.some.inj scalar)
    | float type x =>
      cases value
      exact congrArg (some ∘ Contents.scalar) (Option.some.inj scalar)
    | composite type parts => cases scalar
  results id type found := by cases found

end Machine

namespace Module

theorem TypedInstruction.endsCall {m : Module} {scope : Scope} {i : Instruction}
    {added : Option (ResultId × ResultId)} (checks : m.TypedInstruction scope i added) :
    i.endsCall = false := by
  cases checks <;> rfl

theorem TypedBody.endsCall {m : Module} {scope final : Scope} {is : List Instruction}
    (checks : m.TypedBody scope is final) : ∀ i ∈ is, i.endsCall = false := by
  induction checks with
  | nil => simp
  | cons first new rest ih =>
    intro j member
    rcases List.mem_cons.1 member with rfl | later
    · exact first.endsCall
    · exact ih j later

theorem TypedBody.of_append {m : Module} {scope final : Scope} {is js : List Instruction}
    (checks : m.TypedBody scope (is ++ js) final) : ∃ middle, m.TypedBody scope is middle := by
  induction is generalizing scope with
  | nil => exact ⟨scope, .nil⟩
  | cons i is ih =>
    cases checks with
    | cons first new rest =>
      obtain ⟨middle, typed⟩ := ih rest
      exact ⟨middle, .cons first new typed⟩

/-- A function whose body checks runs to its end, one instruction after the other, and after each of
them the machine is typed. -/
theorem typed_function_runs {m : Module} (reachable : m.Reachable) (fit : m.IdsFit) {s : Machine}
    (boots : Machine.boot m = .ok s) (constants : m.TypedConstants) {entry : ResultId}
    {body rest : List Instruction} {stop : Instruction} {results : Scope}
    (found : Instruction.bodyOf? entry m.code = some (body ++ stop :: rest)) (stops : stop.endsCall)
    (checks : m.TypedBody [] body results) :
    (∃ t, m.run entry = .ok t ∧ t.executed = body.length ∧ t.Typed m results) ∧
    ∀ done, done <+: body → ∃ scope t, m.TypedBody [] done scope ∧ s.execute done = .ok t ∧
      t.executed = done.length ∧ t.Typed m scope := by
  have co : m.Coherent := reachable.coherent fit
  have start : s.Typed m [] := Machine.typed_of_boot co constants boots
  have fresh : s.executed = 0 := (Machine.booted_of_boot co boots).executed
  refine ⟨?_, ?_⟩
  · obtain ⟨t, run, executed, typed⟩ := start.execute checks
    refine ⟨t, run_eq_ok.2 ⟨s, body, stop, rest, boots, found, checks.endsCall, stops, run⟩, ?_, typed⟩
    rw [executed, fresh, Nat.zero_add]
  · rintro done ⟨more, rfl⟩
    obtain ⟨scope, checksDone⟩ := checks.of_append
    obtain ⟨t, run, executed, typed⟩ := start.execute checksDone
    refine ⟨scope, t, checksDone, run, ?_, typed⟩
    rw [executed, fresh, Nat.zero_add]

def nestedParts : List Edit := [
  .wordConstant 0, .wordConstant 1, .wordConstant 3, .wordConstant 2, .floatConstant ⟨0x3f800000⟩,
  .declareType (.vector ⟨6⟩ 2), .declareType (.array ⟨1⟩ ⟨4⟩), .declareType (.struct [⟨8⟩, ⟨9⟩]),
  .declareType (.pointer ⟨10⟩ .privateStorage), .declareVariable ⟨⟨11⟩, .privateStorage⟩,
  .declareType (.pointer ⟨1⟩ .privateStorage), .compositeConstant ⟨8⟩ [⟨7⟩, ⟨7⟩],
  .declareType .void, .declareType (.function ⟨15⟩ []), .freshId, .beginFunction ⟨15⟩ ⟨17⟩ ⟨16⟩,
  .freshId, .label ⟨18⟩, .accessChain ⟨13⟩ ⟨12⟩ [⟨3⟩, ⟨5⟩], .store ⟨19⟩ ⟨4⟩, .load ⟨1⟩ ⟨19⟩,
  .load ⟨10⟩ ⟨12⟩, .vectorShuffle ⟨8⟩ ⟨14⟩ ⟨14⟩ [0, 3], .compositeInsert ⟨10⟩ ⟨22⟩ ⟨21⟩ [0],
  .returnVoid, .endFunction]

theorem typedConstants_nestedParts : (empty.replay nestedParts).TypedConstants := by
  intro id type parts known
  have entries : (empty.replay nestedParts).constants.entries =
      [(⟨2⟩, .word ⟨1⟩ 0), (⟨3⟩, .word ⟨1⟩ 1), (⟨4⟩, .word ⟨1⟩ 3), (⟨5⟩, .word ⟨1⟩ 2),
        (⟨7⟩, .float ⟨6⟩ ⟨0x3f800000⟩), (⟨14⟩, .composite ⟨8⟩ [⟨7⟩, ⟨7⟩])] := by decide +kernel
  unfold constDecl? Table.get? at known
  rw [entries] at known
  simp only [assoc?] at known
  split_ifs at known <;> cases known
  exact ⟨[⟨6⟩, ⟨6⟩], rfl, .cons ⟨_, rfl, rfl⟩ (.cons ⟨_, rfl, rfl⟩ .nil)⟩

def nestedPartsBody : List Instruction := [
  ⟨.opLabel, some ⟨18⟩, none, []⟩,
  ⟨.opAccessChain, some ⟨19⟩, some ⟨13⟩, [.ref ⟨12⟩, .ref ⟨3⟩, .ref ⟨5⟩]⟩,
  ⟨.opStore, none, none, [.ref ⟨19⟩, .ref ⟨4⟩]⟩,
  ⟨.opLoad, some ⟨20⟩, some ⟨1⟩, [.ref ⟨19⟩]⟩,
  ⟨.opLoad, some ⟨21⟩, some ⟨10⟩, [.ref ⟨12⟩]⟩,
  ⟨.opVectorShuffle, some ⟨22⟩, some ⟨8⟩, [.ref ⟨14⟩, .ref ⟨14⟩, .literal 0, .literal 3]⟩,
  ⟨.opCompositeInsert, some ⟨23⟩, some ⟨10⟩, [.ref ⟨22⟩, .ref ⟨21⟩, .literal 0]⟩]

theorem typedBody_nestedParts : (empty.replay nestedParts).TypedBody [] nestedPartsBody
    [(⟨23⟩, ⟨10⟩), (⟨22⟩, ⟨8⟩), (⟨21⟩, ⟨10⟩), (⟨20⟩, ⟨1⟩), (⟨19⟩, ⟨13⟩)] := by
  have indices : List.Forall₂ (fun id index => (empty.replay nestedParts).index? id = some index)
      [⟨3⟩, ⟨5⟩] [1, 2] := .cons rfl (.cons rfl .nil)
  have lanes : List.Forall₂ (fun (k : UInt32) (t : ResultId) =>
      ([⟨6⟩, ⟨6⟩] ++ [⟨6⟩, ⟨6⟩] : List ResultId)[k.toNat]? = some t) [0, 3] [⟨6⟩, ⟨6⟩] :=
    .cons rfl (.cons rfl .nil)
  have inside : (empty.replay nestedParts).typeAt? ⟨10⟩ [0] = some ⟨8⟩ := rfl
  have new : ∀ {scope : Scope} {r : ResultId × ResultId},
      (empty.replay nestedParts).operandType? scope r.1 = none →
      ∀ q ∈ some r, (empty.replay nestedParts).operandType? scope q.1 = none := by
    rintro scope r unknown q ⟨⟩
    exact unknown
  refine .cons .label nofun (.cons (.accessChain rfl rfl indices rfl rfl) (new rfl) ?_)
  refine .cons (.store rfl rfl rfl) nofun (.cons (.load rfl rfl) (new rfl) ?_)
  refine .cons (.load rfl rfl) (new rfl) ?_
  refine .cons (.vectorShuffle rfl rfl rfl rfl rfl lanes) (new rfl) ?_
  exact .cons (.compositeInsert rfl rfl inside rfl) (new rfl) .nil

theorem nested_parts_run :
    ∃ t, (empty.replay nestedParts).run ⟨17⟩ = .ok t ∧ t.executed = 7 ∧
      t.Typed (empty.replay nestedParts)
        [(⟨23⟩, ⟨10⟩), (⟨22⟩, ⟨8⟩), (⟨21⟩, ⟨10⟩), (⟨20⟩, ⟨1⟩), (⟨19⟩, ⟨13⟩)] := by
  obtain ⟨s, boots⟩ : ∃ s, Machine.boot (empty.replay nestedParts) = .ok s := ⟨_, rfl⟩
  have found : Instruction.bodyOf? ⟨17⟩ (empty.replay nestedParts).code =
      some (nestedPartsBody ++ ⟨.opReturn, none, none, []⟩ :: [⟨.opFunctionEnd, none, none, []⟩]) := by
    decide +kernel
  exact (typed_function_runs ⟨nestedParts, rfl⟩ (by decide +kernel) boots typedConstants_nestedParts
    found rfl typedBody_nestedParts).1

end Module
end Shader
