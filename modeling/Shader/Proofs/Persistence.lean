import Shader.Proofs.Workshop

/-!
A module only grows. Main statement: along any mixture of building and emitting, sections are
appended to and nothing else, and an answer that a module has once given is given for ever.
-/

namespace Shader

theorem findSome?_of_prefix {α β : Type} {f : α → Option β} {as bs : List α} (grown : as <+: bs)
    {b : β} (found : as.findSome? f = some b) : bs.findSome? f = some b := by
  obtain ⟨rest, rfl⟩ := grown
  simp [List.findSome?_append, found]

def Table.KeysWithin {α : Type} (t : Table α) (limit : Nat) : Prop :=
  ∀ e ∈ t.toList, e.1.index ≤ limit

namespace Table.KeysWithin
variable {α : Type} {t : Table α} {limit more : Nat}

theorem mono (within : t.KeysWithin limit) (le : limit ≤ more) : t.KeysWithin more := by
  intro e member
  have := within e member
  omega

theorem insert (within : t.KeysWithin limit) (le : limit ≤ more) {id : ResultId}
    (given : id.index ≤ more) (value : α) : (t.insert id value).KeysWithin more := by
  intro e member
  rcases mem_insertEntry member with rfl | old
  · exact given
  · exact within.mono le e old

theorem of_get? (within : t.KeysWithin limit) {id : ResultId} {value : α}
    (known : t.get? id = some value) : id.index ≤ limit := within _ (mem_of_assoc? known)

end Table.KeysWithin

namespace Module
variable {m m' : Module}

/-! What one step does. -/

structure Keyed (m : Module) : Prop where
  types : m.types.KeysWithin m.issued
  constants : m.constants.KeysWithin m.issued
  vars : m.vars.KeysWithin m.issued
  resultTypes : m.resultTypes.KeysWithin m.issued

theorem keyed_empty : empty.Keyed := by
  constructor <;> intro e member <;> cases member

theorem Keyed.of_same (keyed : m.Keyed) (types : m'.types = m.types)
    (constants : m'.constants = m.constants) (vars : m'.vars = m.vars)
    (resultTypes : m'.resultTypes = m.resultTypes) (issued : m.issued ≤ m'.issued) : m'.Keyed where
  types := types ▸ keyed.types.mono issued
  constants := constants ▸ keyed.constants.mono issued
  vars := vars ▸ keyed.vars.mono issued
  resultTypes := resultTypes ▸ keyed.resultTypes.mono issued

theorem Keyed.allocate {id : ResultId} (fit : m.IdsFit) (step : m.Allocates id m')
    (keyed : m.Keyed) : m'.Keyed := by
  have le := Nat.le_succ m.issued
  have given : m.freshId.index ≤ m.issued + 1 := Nat.le_of_eq (index_freshId fit)
  have kept : m.advance.Keyed := keyed.of_same rfl rfl rfl rfl le
  obtain ⟨-, rfl | ⟨d, -, rfl⟩ | ⟨d, -, rfl⟩ | ⟨d, rfl⟩ | ⟨opcode, type, operands, -, rfl⟩⟩ :=
    step.cases
  · exact kept
  · exact { kept with types := keyed.types.insert le given d }
  · exact { kept with constants := keyed.constants.insert le given d }
  · exact { kept with vars := keyed.vars.insert le given d }
  · exact { kept with resultTypes := keyed.resultTypes.insert le given type }

theorem Keyed.write (step : m.Writes m') (keyed : m.Keyed) : m'.Keyed := by
  cases step with
  | capability capability =>
    unfold addCapability
    split
    · exact keyed
    · exact keyed.of_same rfl rfl rfl rfl (Nat.le_refl _)
  | _ => exact keyed.of_same rfl rfl rfl rfl (Nat.le_refl _)

theorem Allocates.extends {id : ResultId} (fit : m.IdsFit) (step : m.Allocates id m') :
    m.Extends m' := by
  obtain ⟨-, rfl | ⟨d, -, rfl⟩ | ⟨d, -, rfl⟩ | ⟨d, rfl⟩ | ⟨opcode, type, operands, -, rfl⟩⟩ :=
    step.cases
  · exact { Extends.refl m with issued := Nat.le_succ _ }
  · exact extends_addType fit d
  · exact extends_addConstant fit d
  · exact extends_addVariable fit d
  · exact extends_addValue fit opcode type operands

theorem Writes.extends (step : m.Writes m') : m.Extends m' := by
  cases step with
  | capability capability =>
    unfold addCapability
    split
    · exact .refl m
    · exact { Extends.refl m with capabilities := List.prefix_append _ _ }
  | memoryModel addressing memory => exact { Extends.refl m with }
  | entryPoint entry => exact { Extends.refl m with entryPoints := List.prefix_append _ _ }
  | name i => exact { Extends.refl m with names := List.prefix_append _ _ }
  | decoration i => exact { Extends.refl m with annotations := List.prefix_append _ _ }
  | code i silent => exact { Extends.refl m with code := List.prefix_append _ _ }

theorem Keyed.toList_vars_insert (keyed : m.Keyed) (fit : m.IdsFit) (d : VarDecl) :
    (m.vars.insert m.freshId d).toList = m.vars.toList ++ [(m.freshId, d)] :=
  Table.toList_insert_of_above (fun e member => lt_freshId fit (keyed.vars e member)) d

theorem Allocates.vars_prefix {id : ResultId} (fit : m.IdsFit) (step : m.Allocates id m')
    (keyed : m.Keyed) : m.vars.toList <+: m'.vars.toList := by
  obtain ⟨-, rfl | ⟨d, -, rfl⟩ | ⟨d, -, rfl⟩ | ⟨d, rfl⟩ | ⟨opcode, type, operands, -, rfl⟩⟩ :=
    step.cases
  · exact List.prefix_rfl
  · exact List.prefix_rfl
  · exact List.prefix_rfl
  · change _ <+: (m.vars.insert m.freshId d).toList
    rw [keyed.toList_vars_insert fit]
    exact List.prefix_append _ _
  · exact List.prefix_rfl

theorem Writes.vars (step : m.Writes m') : m'.vars = m.vars := by
  cases step with
  | capability capability =>
    unfold addCapability
    split <;> rfl
  | _ => rfl

theorem Allocates.capabilities {id : ResultId} (step : m.Allocates id m') :
    m'.capabilities = m.capabilities := by
  obtain ⟨-, rfl | ⟨d, -, rfl⟩ | ⟨d, -, rfl⟩ | ⟨d, rfl⟩ | ⟨opcode, type, operands, -, rfl⟩⟩ :=
    step.cases <;> rfl

theorem Writes.capabilities_nodup (step : m.Writes m') (once : m.capabilities.Nodup) :
    m'.capabilities.Nodup := by
  cases step with
  | capability capability =>
    unfold addCapability
    split
    · exact once
    · rename_i new
      exact List.nodup_append.2 ⟨once, by simp, by
        intro a old b last
        obtain rfl := List.mem_singleton.1 last
        intro same
        exact new (same ▸ old)⟩
  | _ => exact once

/-! What a run of steps does. -/

section Steps
variable {log : List (UInt32 × ResultId)} (trace : m.Trace log m') (fit : m'.IdsFit)
include trace fit

theorem Trace.keyed (keyed : m.Keyed) : m'.Keyed :=
  trace.keeps (fun _ _ _ fit step keyed => keyed.allocate fit step)
    (fun _ _ step keyed => keyed.write step) fit keyed

theorem Trace.extends : m.Extends m' :=
  trace.keeps (P := fun m' => m.Extends m')
    (fun _ _ _ fit step grown => grown.trans (step.extends fit))
    (fun _ _ step grown => grown.trans step.extends) fit (.refl m)

theorem Trace.capabilities_nodup (once : m.capabilities.Nodup) : m'.capabilities.Nodup :=
  trace.keeps (P := fun m => m.capabilities.Nodup)
    (fun _ _ _ _ step once => step.capabilities.symm ▸ once)
    (fun _ _ step once => step.capabilities_nodup once) fit once

theorem Trace.vars_prefix (keyed : m.Keyed) : m.vars.toList <+: m'.vars.toList := by
  have both : m'.Keyed ∧ m.vars.toList <+: m'.vars.toList := by
    refine trace.keeps (P := fun m' => m'.Keyed ∧ m.vars.toList <+: m'.vars.toList) ?_ ?_ fit
      ⟨keyed, List.prefix_rfl⟩
    · rintro m₁ id m₂ fit step ⟨keyed, listed⟩
      exact ⟨keyed.allocate fit step, listed.trans (step.vars_prefix fit keyed)⟩
    · rintro m₁ m₂ step ⟨keyed, listed⟩
      exact ⟨keyed.write step, step.vars ▸ listed⟩
  exact both.2

end Steps

/-! What questions are answered. -/

/-- The second module has all that the first has, in the same order and before anything else, and
gives every answer that the first gives. -/
structure Preserves (m m' : Module) : Prop where
  capabilities : m.capabilities <+: m'.capabilities
  entryPoints : m.entryPoints <+: m'.entryPoints
  names : m.names <+: m'.names
  annotations : m.annotations <+: m'.annotations
  globals : m.globals <+: m'.globals
  code : m.code <+: m'.code
  type : ∀ id d, m.typeDecl? id = some d → m'.typeDecl? id = some d
  constant : ∀ id d, m.constDecl? id = some d → m'.constDecl? id = some d
  var : ∀ id d, m.varDecl? id = some d → m'.varDecl? id = some d
  value : ∀ id type, m.resultType? id = some type → m'.resultType? id = some type
  name : ∀ id text, m.name? id = some text → m'.name? id = some text
  memberName : ∀ id member text,
    m.memberName? id member = some text → m'.memberName? id member = some text
  memberBuiltIn : ∀ id member builtIn,
    m.memberBuiltIn? id member = some builtIn → m'.memberBuiltIn? id member = some builtIn
  decorated : ∀ id decoration, m.isDecorated id decoration → m'.isDecorated id decoration
  count : ∀ opcode, m.countOpcode opcode ≤ m'.countOpcode opcode
  vars : m.vars.toList <+: m'.vars.toList

theorem Extends.preserves (grown : m.Extends m') (keyed : m.Keyed)
    (vars : m.vars.toList <+: m'.vars.toList) : m.Preserves m' where
  capabilities := grown.capabilities
  entryPoints := grown.entryPoints
  names := grown.names
  annotations := grown.annotations
  globals := by
    obtain ⟨later, same, -⟩ := grown.globals
    exact same ▸ List.prefix_append _ _
  code := grown.code
  type id d known := by rw [grown.types id (keyed.types.of_get? known), known]
  constant id d known := by rw [grown.constants id (keyed.constants.of_get? known), known]
  var id d known := by rw [grown.vars id (keyed.vars.of_get? known), known]
  value id type known := by rw [grown.resultTypes id (keyed.resultTypes.of_get? known), known]
  name id text := findSome?_of_prefix grown.names
  memberName id member text := findSome?_of_prefix grown.names
  memberBuiltIn id member builtIn := findSome?_of_prefix grown.annotations
  decorated id decoration known := by
    obtain ⟨i, member, decorates⟩ := List.any_eq_true.1 known
    exact List.any_eq_true.2 ⟨i, grown.annotations.subset member, decorates⟩
  count opcode := grown.code.sublist.countP_le
  vars := vars

end Module

/-! Parts of a module that an operation leaves alone. -/

namespace Build
variable {α β γ : Type} {part : Module → γ}

class Keeps (part : Module → γ) (x : Build α) : Prop where
  same : ∀ m, part (x m).2 = part m

theorem Keeps.eq (part : Module → γ) (x : Build α) [keeps : Keeps part x] (m : Module) :
    part (x m).2 = part m := keeps.same m

instance (a : α) : Keeps part (pure a : Build α) := ⟨fun _ => rfl⟩

instance (x : Build α) (f : α → Build β) [first : Keeps part x] [second : ∀ a, Keeps part (f a)] :
    Keeps part (x >>= f) :=
  ⟨fun m => ((second _).same _).trans (first.same m)⟩

instance (c : Prop) [Decidable c] (x y : Build α) [Keeps part x] [Keeps part y] :
    Keeps part (if c then x else y) := by
  split <;> infer_instance

instance (xs : List α) (f : α → Build β) [∀ a, Keeps part (f a)] : Keeps part (xs.mapM f) := by
  induction xs with
  | nil => exact inferInstanceAs (Keeps part (pure []))
  | cons x xs ih =>
    rw [List.mapM_cons]
    infer_instance

instance (xs : List α) (f : α → Build PUnit) [∀ a, Keeps part (f a)] : Keeps part (xs.forM f) := by
  induction xs with
  | nil => exact inferInstanceAs (Keeps part (pure PUnit.unit))
  | cons x xs ih => exact inferInstanceAs (Keeps part (f x >>= fun _ => xs.forM f))

class Undeclared (part : Module → γ) : Prop where
  addType : ∀ m d, part (m.addType d) = part m
  addConstant : ∀ m d, part (m.addConstant d) = part m

instance : Undeclared Module.code := ⟨fun _ _ => rfl, fun _ _ => rfl⟩

instance : Undeclared Module.names := ⟨fun _ _ => rfl, fun _ _ => rfl⟩

instance : Undeclared Module.vars := ⟨fun _ _ => rfl, fun _ _ => rfl⟩

section Declaring
variable [undeclared : Undeclared part]

instance (d : TypeDecl) : Keeps part (declareType d) := by
  constructor
  intro m
  unfold declareType
  split
  · rfl
  · exact undeclared.addType m d

instance (d : ConstDecl) : Keeps part (declareConstant d) := by
  constructor
  intro m
  unfold declareConstant
  split
  · rfl
  · exact undeclared.addConstant m d

instance (value : UInt32) : Keeps part (wordConstant value) := by
  unfold wordConstant
  infer_instance

instance (value : Binary32) : Keeps part (floatConstant value) := by
  unfold floatConstant
  infer_instance

instance (type : ResultId) (parts : List ResultId) : Keeps part (compositeConstant type parts) :=
  inferInstanceAs (Keeps part (declareConstant _))

instance (kind : ScalarKind) : Keeps part kind.declare :=
  inferInstanceAs (Keeps part (declareType _))

instance (t : LogicalType) : Keeps part t.declare := by
  unfold LogicalType.declare LogicalType.declareVector
  infer_instance

instance (t : PlaceType) : Keeps part t.declare := by
  unfold PlaceType.declare
  infer_instance

end Declaring
end Build

namespace Workshop

/-- Whatever is done to a module, by hand or by emitters, it keeps what it has and every answer that
it has given. No capability is listed twice, and variables are listed by increasing id. -/
theorem module_only_grows {before after : List Operation} {w w' : Workshop}
    (reached : performAll {} before = some w) (run : w.performAll after = some w')
    (fit : w'.module.IdsFit) :
    w.module.Preserves w'.module ∧ w'.module.capabilities.Nodup ∧
      (w'.module.vars.toList.map Prod.fst).Pairwise (· < ·) := by
  have start := performAll_trace reached
  have trace := performAll_trace run
  have fitHere : w.module.IdsFit := fit.of_le (by rw [trace.issued]; exact Nat.le_add_right _ _)
  have keyed := start.keyed fitHere Module.keyed_empty
  refine ⟨(trace.extends fit).preserves keyed (trace.vars_prefix fit keyed), ?_, ?_⟩
  · exact trace.capabilities_nodup fit (start.capabilities_nodup fitHere .nil)
  · exact List.pairwise_map.2 w'.module.vars.sorted

def halfDone : List Operation :=
  [.edit (.declareType (.float 32)), .edit (.name ⟨1⟩ "number"), .startStage .vertex,
    .direct (.reserve 1)]

def otherHalf : List Operation :=
  [.edit (.name ⟨1⟩ "again"), .edit (.enableCapability .shader), .direct (.reserve 3), .position,
    .finish, .start]

theorem halfDone_only_grows :
    ∃ w w', performAll {} halfDone = some w ∧ w.performAll otherHalf = some w' ∧
      w'.module.IdsFit ∧ w.module.Preserves w'.module ∧ w'.module.name? ⟨1⟩ = some "number" ∧
      w'.module.capabilities.Nodup := by
  have runs : (performAll {} halfDone).any (fun w =>
      decide (w.module.name? ⟨1⟩ = some "number") &&
        (w.performAll otherHalf).any fun w' => decide w'.module.IdsFit) = true := by
    decide +kernel
  obtain ⟨w, reached, here⟩ := (Option.any_eq_true _ _).1 runs
  rw [Bool.and_eq_true] at here
  obtain ⟨w', run, fit⟩ := (Option.any_eq_true _ _).1 here.2
  have named : w.module.name? ⟨1⟩ = some "number" := of_decide_eq_true here.1
  obtain ⟨preserves, distinct, -⟩ := module_only_grows reached run (of_decide_eq_true fit)
  exact ⟨w, w', reached, run, of_decide_eq_true fit, preserves, preserves.name _ _ named, distinct⟩

end Workshop
end Shader
