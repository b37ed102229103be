import Shader.Proofs.Numbering
import Shader.Proofs.Typing

/-!
Which modules can be started. In a module whose declarations mention what was there before, every type
is nested to a finite depth. Main statement: such a module starts exactly if its composite constants
are made of constants and its variables are of types that have a zero; then every constant has the
value that its declaration denotes and every variable is zero in the shape of its type.
-/

namespace Shader
open Build (Ensures declareType declareConstant)

/-! Declarations in layers. -/

namespace Module

def passesBelow : Module → List Edit → Bool
  | _, [] => true
  | m, e :: es => e.args.all (fun id => id.word < m.bound) && (m.edit e).passesBelow es

/-- Declarations mention only smaller ids than their own. -/
structure Layered (m : Module) : Prop where
  types : ∀ id d, m.typeDecl? id = some d → ∀ part ∈ d.ids, part < id
  constants : ∀ id d, m.constDecl? id = some d → ∀ part ∈ d.ids, part < id

variable {m : Module}

theorem layered_empty : empty.Layered := by
  constructor <;> intro id d known <;> cases known

theorem Layered.addType (layered : m.Layered) (fit : m.IdsFit) {d : TypeDecl}
    (given : m.Given d.ids) : (m.addType d).Layered where
  types id e known := by
    obtain ⟨rfl, rfl⟩ | ⟨-, old⟩ := Table.get?_insert_eq_some.1 known
    · exact fun part member => lt_freshId fit (given part member)
    · exact layered.types id e old
  constants := layered.constants

theorem Layered.addConstant (layered : m.Layered) (fit : m.IdsFit) {d : ConstDecl}
    (given : m.Given d.ids) : (m.addConstant d).Layered where
  types := layered.types
  constants id e known := by
    obtain ⟨rfl, rfl⟩ | ⟨-, old⟩ := Table.get?_insert_eq_some.1 known
    · exact fun part member => lt_freshId fit (given part member)
    · exact layered.constants id e old

end Module

namespace Build
variable {m : Module} (layered : m.Layered)
include layered

theorem declareType_layered {d : TypeDecl} (given : m.Given d.ids) :
    (declareType d).Ensures m fun _ m' => m'.Layered := by
  intro fit
  unfold declareType at fit ⊢
  split at fit
  · exact layered
  · exact layered.addType (fit.of_le (Nat.le_succ _)) given

theorem declareConstant_layered {d : ConstDecl} (given : m.Given d.ids) :
    (declareConstant d).Ensures m fun _ m' => m'.Layered := by
  intro fit
  unfold declareConstant at fit ⊢
  split at fit
  · exact layered
  · exact layered.addConstant (fit.of_le (Nat.le_succ _)) given

theorem declareNumber_layered (co : m.Coherent) {d : TypeDecl} {number : ResultId → ConstDecl}
    (atomic : d.ids = []) (typed : ∀ type, (number type).ids = [type]) :
    (declareType d >>= fun type => declareConstant (number type)).Ensures m
      fun _ m' => m'.Layered := by
  have first : (declareType d).Ensures m fun type m' => m'.Layered ∧ m'.Given [type] := by
    intro fit
    obtain ⟨grown, known⟩ := declareType_ensures co d fit
    refine ⟨declareType_layered layered (by simp [atomic]) fit, ?_⟩
    simpa using grown.coherent.given_of_type known
  refine first.bind inferInstance ?_
  rintro type m₁ ⟨layered₁, given⟩
  exact declareConstant_layered layered₁ (by simpa [typed] using given)

end Build

theorem Edit.perform_layered {m : Module} (co : m.Coherent) (layered : m.Layered) {e : Edit}
    (given : m.Given e.args) : e.perform.Ensures m fun _ m' => m'.Layered := by
  cases e with
  | declareType d => exact .map (Build.declareType_layered layered given)
  | wordConstant value => exact .map (Build.declareNumber_layered layered co rfl fun _ => rfl)
  | floatConstant value => exact .map (Build.declareNumber_layered layered co rfl fun _ => rfl)
  | compositeConstant type parts => exact .map (Build.declareConstant_layered layered given)
  | enableCapability capability =>
    intro fit
    show (m.addCapability capability).Layered
    unfold Module.addCapability
    split
    · exact layered
    · exact ⟨layered.types, layered.constants⟩
  | _ => exact fun _ => ⟨layered.types, layered.constants⟩

namespace Module
variable {m : Module} {type id : ResultId}

theorem replay_layered (co : m.Coherent) (layered : m.Layered) {history : List Edit}
    (passes : m.passesBelow history) (fit : (m.replay history).IdsFit) :
    (m.replay history).Layered := by
  induction history generalizing m with
  | nil => exact layered
  | cons e es ih =>
    simp only [passesBelow, Bool.and_eq_true, List.all_eq_true, decide_eq_true_eq] at passes
    have stepFit : (m.edit e).IdsFit := fit.of_le (issued_le_replay _ es)
    have given : m.Given e.args :=
      fun id member => (Module.lt_bound_iff co.fit).1 (passes.1 id member)
    have step : m.Continues (m.edit e) := e.perform_ensures co stepFit
    exact ih step.coherent (e.perform_layered co layered given stepFit) passes.2 fit

/-! Zeros by recursion on the layers. -/

def zeroLayer (m : Module) (inner : ResultId → Except ExecError Contents) (type : ResultId) :
    Except ExecError Contents :=
  match m.typeDecl? type with
  | some (.int _ _) => .ok (.scalar 0)
  | some (.float _) => .ok (.scalar 0)
  | some (.vector component count) => do
    let lane ← inner component
    return .composite (List.replicate count.toNat lane)
  | some (.array element length) => do
    match (m.constDecl? length).bind ConstDecl.bits? with
    | some size =>
      let zero ← inner element
      return .composite (List.replicate size.toNat zero)
    | none => throw (.unsupportedType type)
  | some (.struct members) => do
    return .composite (← members.mapM inner)
  | _ => .error (.unsupportedType type)

theorem zeroWithin_succ (m : Module) (depth : Nat) (type : ResultId) :
    m.zeroWithin (depth + 1) type = m.zeroLayer (m.zeroWithin depth) type := rfl

theorem zeroLayer_congr {f g : ResultId → Except ExecError Contents}
    (same : ∀ d, m.typeDecl? type = some d → ∀ part ∈ d.ids, f part = g part) :
    m.zeroLayer f type = m.zeroLayer g type := by
  unfold zeroLayer
  cases known : m.typeDecl? type with
  | none => rfl
  | some d =>
    have parts := same d known
    cases d with
    | vector component count => simp only [parts component (by simp [TypeDecl.ids])]
    | array element length => simp only [parts element (by simp [TypeDecl.ids])]
    | struct members =>
      have all : members.mapM f = members.mapM g := mapM_congr parts
      simp only [all]
    | _ => rfl

section Layers
variable (layered : m.Layered)
include layered

theorem zeroWithin_stable {n k : Nat} (within : type.index < n) (within' : type.index < k) :
    m.zeroWithin n type = m.zeroWithin k type := by
  induction n generalizing k type with
  | zero => omega
  | succ n ih =>
    obtain ⟨j, rfl⟩ : ∃ j, k = j + 1 := ⟨k - 1, by omega⟩
    rw [zeroWithin_succ, zeroWithin_succ]
    refine zeroLayer_congr fun d known part member => ?_
    have below := ResultId.lt_iff.1 (layered.types type d known part member)
    exact ih (by omega) (by omega)

/-- The bound on the depth is never met. -/
theorem zero_eq_zeroLayer (co : m.Coherent) (type : ResultId) :
    m.zero type = m.zeroLayer m.zero type := by
  rw [zero, toNat_bound co.fit, zeroWithin_succ]
  refine zeroLayer_congr fun d known part member => ?_
  have below := ResultId.lt_iff.1 (layered.types type d known part member)
  have given := co.given_of_type known
  rw [zero, toNat_bound co.fit]
  exact zeroWithin_stable layered (by omega) (by omega)

theorem zero_unique (co : m.Coherent) {f : ResultId → Except ExecError Contents}
    (solves : ∀ type, f type = m.zeroLayer f type) (type : ResultId) : f type = m.zero type := by
  induction size : type.index using Nat.strongRecOn generalizing type with
  | ind n ih =>
    rw [solves type, zero_eq_zeroLayer layered co]
    refine zeroLayer_congr fun d known part member => ?_
    have below := ResultId.lt_iff.1 (layered.types type d known part member)
    exact ih part.index (by omega) part rfl

end Layers

/-! Types that have a zero. -/

inductive Materialisable (m : Module) : ResultId → Prop where
  | int {type : ResultId} {width : UInt32} {signed : Bool}
      (shape : m.typeDecl? type = some (.int width signed)) : Materialisable m type
  | float {type : ResultId} {width : UInt32} (shape : m.typeDecl? type = some (.float width)) :
      Materialisable m type
  | vector {type component : ResultId} {count : UInt32}
      (shape : m.typeDecl? type = some (.vector component count))
      (inner : Materialisable m component) : Materialisable m type
  | array {type element length : ResultId} {size : ConstDecl} {bits : UInt64}
      (shape : m.typeDecl? type = some (.array element length))
      (constant : m.constDecl? length = some size) (scalar : size.bits? = some bits)
      (inner : Materialisable m element) : Materialisable m type
  | struct {type : ResultId} {members : List ResultId}
      (shape : m.typeDecl? type = some (.struct members))
      (inner : ∀ member ∈ members, Materialisable m member) : Materialisable m type

end Module

inductive Contents.AllZero : Contents → Prop where
  | scalar : AllZero (.scalar 0)
  | composite {parts : List Contents} (each : ∀ c ∈ parts, AllZero c) : AllZero (.composite parts)

theorem Contents.AllZero.replicate {c : Contents} (zero : c.AllZero) (n : Nat) :
    (Contents.composite (List.replicate n c)).AllZero := by
  refine .composite fun x member => ?_
  rw [List.eq_of_mem_replicate member]
  exact zero

theorem exists_mapM_ok {ε α β : Type} {f : α → Except ε β} {xs : List α}
    (each : ∀ x ∈ xs, ∃ y, f x = .ok y) : ∃ ys, xs.mapM f = .ok ys := by
  obtain ⟨ys, all⟩ := exists_forall₂ each
  exact ⟨ys, mapM_eq_ok.2 all⟩

namespace Module
variable {m : Module} {type id : ResultId}

theorem Materialisable.exists_zero (co : m.Coherent) (layered : m.Layered)
    (materialisable : m.Materialisable type) : ∃ c, m.zero type = .ok c := by
  induction materialisable with
  | int shape => exact ⟨.scalar 0, by rw [zero_eq_zeroLayer layered co, zeroLayer, shape]⟩
  | float shape => exact ⟨.scalar 0, by rw [zero_eq_zeroLayer layered co, zeroLayer, shape]⟩
  | @vector _ _ count shape inner ih =>
    obtain ⟨lane, zero⟩ := ih
    refine ⟨.composite (List.replicate count.toNat lane), ?_⟩
    rw [zero_eq_zeroLayer layered co, zeroLayer, shape]
    exact bind_eq_ok.2 ⟨lane, zero, rfl⟩
  | @array _ _ _ _ bits shape constant scalar inner ih =>
    obtain ⟨c, zero⟩ := ih
    refine ⟨.composite (List.replicate bits.toNat c), ?_⟩
    rw [zero_eq_zeroLayer layered co, zeroLayer, shape]
    simp only [constant, Option.bind_some, scalar]
    exact bind_eq_ok.2 ⟨c, zero, rfl⟩
  | struct shape inner ih =>
    obtain ⟨parts, zeros⟩ := exists_mapM_ok ih
    refine ⟨.composite parts, ?_⟩
    rw [zero_eq_zeroLayer layered co, zeroLayer, shape]
    exact bind_eq_ok.2 ⟨parts, zeros, rfl⟩

theorem materialisable_of_zeroWithin {depth : Nat} {c : Contents}
    (zero : m.zeroWithin depth type = .ok c) : m.Materialisable type ∧ c.AllZero := by
  induction depth generalizing type c with
  | zero => cases zero
  | succ depth ih =>
    rw [zeroWithin_succ, zeroLayer] at zero
    cases known : m.typeDecl? type with
    | none => simp [known] at zero
    | some d =>
      rw [known] at zero
      cases d with
      | int width signed =>
        cases zero
        exact ⟨.int known, .scalar⟩
      | float width =>
        cases zero
        exact ⟨.float known, .scalar⟩
      | vector component count =>
        obtain ⟨lane, found, same⟩ := bind_eq_ok.1 zero
        cases same
        exact ⟨.vector known (ih found).1, (ih found).2.replicate _⟩
      | array element length =>
        cases size : (m.constDecl? length).bind ConstDecl.bits? with
        | none => simp [size] at zero
        | some bits =>
          simp only [size] at zero
          obtain ⟨each, found, same⟩ := bind_eq_ok.1 zero
          cases same
          obtain ⟨constant, there, scalar⟩ := Option.bind_eq_some_iff.1 size
          exact ⟨.array known there scalar (ih found).1, (ih found).2.replicate _⟩
      | struct members =>
        obtain ⟨parts, found, same⟩ := bind_eq_ok.1 zero
        cases same
        have all := mapM_eq_ok.1 found
        refine ⟨.struct known fun member inside => ?_, .composite fun part inside => ?_⟩
        · obtain ⟨part, zero⟩ := exists_of_mem_forall₂ all.flip member inside
          exact (ih zero).1
        · obtain ⟨member, zero⟩ := exists_of_mem_forall₂ all part inside
          exact (ih zero).2
      | _ => cases zero

inductive Denotes (m : Module) : ResultId → Contents → Prop where
  | word {id type : ResultId} {value : UInt32} (known : m.constDecl? id = some (.word type value)) :
      Denotes m id (.scalar value.toUInt64)
  | float {id type : ResultId} {value : Binary32}
      (known : m.constDecl? id = some (.float type value)) :
      Denotes m id (.scalar value.bits.toUInt64)
  | composite {id type : ResultId} {parts : List ResultId} {values : List Contents}
      (known : m.constDecl? id = some (.composite type parts))
      (count : parts.length = values.length)
      (each : ∀ pair ∈ parts.zip values, Denotes m pair.1 pair.2) : Denotes m id (.composite values)

/-- What starting a module asks of it: that composite constants are made of constants, and that
variables are behind pointers to types that have a zero. -/
structure Startable (m : Module) : Prop where
  parts : ∀ id type parts, m.constDecl? id = some (.composite type parts) →
    ∀ part ∈ parts, ∃ d, m.constDecl? part = some d
  vars : ∀ id d, m.varDecl? id = some d → ∃ pointee storage,
    m.typeDecl? d.pointerType = some (.pointer pointee storage) ∧ m.Materialisable pointee

end Module

namespace Machine
open Instruction (mem_results)
variable {m : Module} {s : Machine} {id : ResultId}

theorem get_of_value {c : Contents} (found : s.value id = .ok c) : s.values.get? id = some c := by
  unfold value at found
  split at found
  · rename_i known
    cases found
    exact known
  · cases found

section Starting
variable (co : m.Coherent) (layered : m.Layered)
include co layered

theorem Booted.parts_known {before after : List Instruction} {d : ConstDecl} {type : ResultId}
    {parts : List ResultId} (booted : Booted m before s)
    (all : m.globals = before ++ d.instruction id :: after)
    (known : m.constDecl? id = some (.composite type parts))
    (constants : ∀ part ∈ parts, ∃ e, m.constDecl? part = some e) :
    ∀ part ∈ parts, ∃ c, s.value part = .ok c := by
  intro part member
  obtain ⟨e, there⟩ := constants part member
  have smaller : part < id := layered.constants id _ known part (List.mem_cons_of_mem _ member)
  rw [ResultId.lt_iff] at smaller
  have declared : e.instruction part ∈ before := by
    have listed := co.declaration part _ (.constant there)
    rw [all] at listed
    rcases List.mem_append.1 listed with early | rest
    · exact early
    · rcases List.mem_cons.1 rest with same | late
      · have clash : some part = some id := congrArg Instruction.result same
        cases clash
        omega
      · have later := (co.order all rfl).2 part (mem_results.2 ⟨_, late, rfl⟩)
        rw [ResultId.lt_iff] at later
        omega
  obtain ⟨c, found, -⟩ := booted.values part e there declared
  exact ⟨c, value_of_get found⟩

theorem Booted.declare_ok {before after : List Instruction} {i : Instruction}
    (startable : m.Startable) (booted : Booted m before s) (all : m.globals = before ++ i :: after)
    (declares : m.Declares id i) : ∃ s', declare m s i = .ok s' := by
  cases declares with
  | @type d known => exact ⟨s, declare_type s d⟩
  | @constant d known =>
    have value : ∃ c, s.constant d = .ok c := by
      cases d with
      | word type value => exact ⟨_, rfl⟩
      | float type value => exact ⟨_, rfl⟩
      | composite type parts =>
        obtain ⟨values, found⟩ := exists_mapM_ok
          (booted.parts_known co layered all known (startable.parts id type parts known))
        exact ⟨_, bind_eq_ok.2 ⟨values, found, rfl⟩⟩
    obtain ⟨c, value⟩ := value
    exact ⟨_, by rw [declare_constant s known, value]; rfl⟩
  | @var d known =>
    obtain ⟨pointee, storage, points, materialisable⟩ := startable.vars id d known
    obtain ⟨c, zero⟩ := materialisable.exists_zero co layered
    exact ⟨_, by rw [declare_variable s known points, zero]; rfl⟩

theorem exists_boot (startable : m.Startable) : ∃ s, boot m = .ok s := by
  have run : ∀ (after before : List Instruction) (u : Machine), m.globals = before ++ after →
      Booted m before u → ∃ s, after.foldlM (declare m) u = .ok s := by
    intro after
    induction after with
    | nil => exact fun before u _ _ => ⟨u, rfl⟩
    | cons i after ih =>
      intro before u all booted
      obtain ⟨id, declares⟩ := co.declared i (by simp [all])
      obtain ⟨v, first⟩ := booted.declare_ok co layered startable all declares
      obtain ⟨s, rest⟩ := ih (before ++ [i]) v (by simp [all]) (booted.step co all declares first)
      exact ⟨s, bind_eq_ok.2 ⟨v, first, rest⟩⟩
  exact run m.globals [] {} rfl (booted_nil m)

end Starting

section Started
variable (co : m.Coherent) (boots : boot m = .ok s)
include co boots

theorem startable_of_boot : m.Startable where
  parts id type parts known part member := by
    obtain ⟨c, -, value⟩ := boot_constant co boots known
    obtain ⟨values, found, -⟩ := bind_eq_ok.1 value
    obtain ⟨x, here⟩ := exists_of_mem_forall₂ (mapM_eq_ok.1 found).flip part member
    obtain ⟨d, there, -⟩ := boot_value co boots (get_of_value here)
    exact ⟨d, there⟩
  vars id d known := by
    obtain ⟨pointee, storage, c, points, zero, -⟩ := boot_variable co boots known
    exact ⟨pointee, storage, points, (Module.materialisable_of_zeroWithin zero).1⟩

theorem denotes_of_boot (layered : m.Layered) {c : Contents} (found : s.values.get? id = some c) :
    m.Denotes id c := by
  -- Parts have smaller ids than the constant that they are parts of.
  induction size : id.index using Nat.strongRecOn generalizing id c with
  | ind n ih =>
    obtain ⟨d, known, value⟩ := boot_value co boots found
    cases d with
    | word type number =>
      cases value
      exact .word known
    | float type number =>
      cases value
      exact .float known
    | composite type parts =>
      obtain ⟨values, each, same⟩ := bind_eq_ok.1 value
      cases same
      have all := mapM_eq_ok.1 each
      refine .composite known all.length_eq fun pair member => ?_
      have part : pair.1 ∈ parts := (List.of_mem_zip member).1
      have smaller := ResultId.lt_iff.1
        (layered.constants id _ known pair.1 (List.mem_cons_of_mem _ part))
      exact ih pair.1.index (by omega) (get_of_value (List.forall₂_zip all member)) rfl

end Started

/-- The machine knows the constants of the module and the variables, and nothing else. Constants have
the values that they denote, and variables are zero in the shape of their types. -/
structure IsStart (s : Machine) (m : Module) : Prop where
  memory : ∀ id, (∃ c, s.memory.get? id = some c) ↔ ∃ d, m.varDecl? id = some d
  values : ∀ id, (∃ c, s.values.get? id = some c) ↔ ∃ d, m.constDecl? id = some d
  zero : ∀ id d, m.varDecl? id = some d → ∃ pointee storage c,
    m.typeDecl? d.pointerType = some (.pointer pointee storage) ∧ s.memory.get? id = some c ∧
      m.Holds pointee c ∧ c.AllZero
  constant : ∀ id c, s.values.get? id = some c → m.Denotes id c

theorem isStart_of_boot (co : m.Coherent) (layered : m.Layered) (boots : boot m = .ok s) :
    s.IsStart m where
  memory id := by
    constructor
    · rintro ⟨c, found⟩
      exact boot_memory co boots found
    · rintro ⟨d, known⟩
      obtain ⟨-, -, c, -, -, found⟩ := boot_variable co boots known
      exact ⟨c, found⟩
  values id := by
    constructor
    · rintro ⟨c, found⟩
      obtain ⟨d, known, -⟩ := boot_value co boots found
      exact ⟨d, known⟩
    · rintro ⟨d, known⟩
      obtain ⟨c, found, -⟩ := boot_constant co boots known
      exact ⟨c, found⟩
  zero id d known := by
    obtain ⟨pointee, storage, c, points, zero, found⟩ := boot_variable co boots known
    exact ⟨pointee, storage, c, points, found, Module.zeroWithin_holds zero,
      (Module.materialisable_of_zeroWithin zero).2⟩
  constant id c found := denotes_of_boot co boots layered found

/-- In a module that was built from ids below the bound, types mention smaller ids than their own.
So the recursion that makes the zero of a type comes to an end, and has one solution. The module
starts exactly if composite constants are made of constants and variables point to types that have a
zero. -/
theorem boot_succeeds_iff_startable {history : List Edit} {m : Module}
    (built : Module.empty.replay history = m) (passes : Module.empty.passesBelow history)
    (fit : m.IdsFit) :
    (∀ id d, m.typeDecl? id = some d → ∀ part ∈ d.ids, part < id) ∧
    (WellFounded fun part type => ∃ d, m.typeDecl? type = some d ∧ part ∈ d.ids) ∧
    (∀ f : ResultId → Except ExecError Contents,
      (∀ type, f type = m.zeroLayer f type) ↔ f = m.zero) ∧
    ((∃ s, boot m = .ok s) ↔ m.Startable) ∧
    ∀ s, boot m = .ok s → s.IsStart m := by
  subst built
  have co := Module.Reachable.coherent ⟨history, rfl⟩ fit
  have layered := Module.replay_layered Module.coherent_empty Module.layered_empty passes fit
  refine ⟨layered.types, ?_, ?_, ?_, fun s boots => isStart_of_boot co layered boots⟩
  · refine Subrelation.wf ?_ (measure ResultId.index).wf
    rintro part type ⟨d, known, member⟩
    exact ResultId.lt_iff.1 (layered.types type d known part member)
  · intro f
    constructor
    · intro solves
      exact funext (Module.zero_unique layered co solves)
    · rintro rfl
      exact Module.zero_eq_zeroLayer layered co
  · constructor
    · rintro ⟨s, boots⟩
      exact startable_of_boot co boots
    · exact exists_boot co layered

def nested : List Edit :=
  [.declareType (.float 32), .declareType (.vector ⟨1⟩ 2), .wordConstant 3,
    .declareType (.array ⟨2⟩ ⟨4⟩), .declareType (.struct [⟨5⟩, ⟨1⟩]),
    .declareType (.pointer ⟨6⟩ .privateStorage), .declareVariable ⟨⟨7⟩, .privateStorage⟩,
    .floatConstant ⟨1065353216⟩, .compositeConstant ⟨2⟩ [⟨9⟩, ⟨9⟩],
    .compositeConstant ⟨5⟩ [⟨10⟩, ⟨10⟩, ⟨10⟩]]

theorem nested_starts : ∃ s c, boot (Module.empty.replay nested) = .ok s ∧
    (Module.empty.replay nested).Startable ∧ s.values.get? ⟨11⟩ = some c ∧
    (Module.empty.replay nested).Denotes ⟨11⟩ c := by
  have runs : (boot (Module.empty.replay nested)).toOption.any
      (fun s => (s.values.get? ⟨11⟩).isSome) = true := by
    decide +kernel
  obtain ⟨s, boots, here⟩ := (Option.any_eq_true _ _).1 runs
  obtain ⟨c, found⟩ := Option.isSome_iff_exists.1 here
  have boots : boot (Module.empty.replay nested) = .ok s := by
    cases started : boot (Module.empty.replay nested) with
    | error e => simp [started, Except.toOption] at boots
    | ok u => simpa [started, Except.toOption] using boots
  obtain ⟨-, -, -, starts, start⟩ :=
    boot_succeeds_iff_startable rfl (by decide +kernel : Module.empty.passesBelow nested)
      (by decide +kernel)
  exact ⟨s, c, boots, starts.1 ⟨s, boots⟩, found, (start s boots).constant _ c found⟩

end Machine
end Shader
