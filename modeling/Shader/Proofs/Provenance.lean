import Shader.Proofs.Confinement
import Shader.Proofs.Workshop

/-!
Where answers come from. Main statement: an id that an operation answers was passed to it, unless it
is one that the operation or one before it has allocated.
-/

namespace Shader
open Build (Recorded RecordedIf)

namespace Module

def sharedIds (m : Module) : List ResultId := m.typeIds.map Prod.snd ++ m.constIds.map Prod.snd

theorem Allocates.sharedIds {m m' : Module} {id : ResultId} (step : m.Allocates id m') :
    m'.sharedIds ⊆ id :: m.sharedIds := by
  obtain ⟨rfl, rfl | ⟨d, -, rfl⟩ | ⟨d, -, rfl⟩ | ⟨d, rfl⟩ | ⟨opcode, type, operands, -, rfl⟩⟩ :=
    step.cases
  · exact List.subset_cons_self _ _
  · intro id member
    have parts : id ∈ (if d.isShared then m.typeIds ++ [(d, m.freshId)] else m.typeIds).map Prod.snd ∨
        id ∈ m.constIds.map Prod.snd := List.mem_append.1 member
    rw [List.mem_cons, Module.sharedIds, List.mem_append]
    split at parts <;> grind
  · intro id member
    have parts : id ∈ m.typeIds.map Prod.snd ∨ id ∈ (m.constIds ++ [(d, m.freshId)]).map Prod.snd :=
      List.mem_append.1 member
    rw [List.mem_cons, Module.sharedIds, List.mem_append]
    grind
  · exact List.subset_cons_self _ _
  · exact List.subset_cons_self _ _

theorem Writes.sharedIds {m m' : Module} (step : m.Writes m') : m'.sharedIds = m.sharedIds := by
  cases step with
  | capability capability =>
    unfold addCapability
    split <;> rfl
  | _ => rfl

theorem Trace.sharedIds {m m' : Module} {log : List (UInt32 × ResultId)} (trace : m.Trace log m') :
    ∀ id ∈ m'.sharedIds, id ∈ m.sharedIds ∨ id ∈ log.map Prod.snd := by
  induction trace with
  | done m => exact fun id member => .inl member
  | @allocate m m₁ m₂ new log step rest ih =>
    intro id member
    rw [List.map_cons, List.mem_cons]
    rcases ih id member with old | later
    · rcases List.mem_cons.1 (step.sharedIds old) with rfl | shared
      · exact .inr (.inl rfl)
      · exact .inl shared
    · exact .inr (.inr later)
  | write step rest ih => exact step.sharedIds ▸ ih

/-- The id was passed, is found in the module or has been allocated since. -/
def Sourced (m : Module) (passed : List ResultId) (log : List (UInt32 × ResultId))
    (id : ResultId) : Prop := id ∈ passed ∨ id ∈ m.sharedIds ∨ id ∈ log.map Prod.snd

theorem Sourced.through {m m₁ : Module} {passed answered : List ResultId}
    {xs ys : List (UInt32 × ResultId)} {id : ResultId} (trace : m.Trace xs m₁)
    (first : ∀ id ∈ answered, m.Sourced passed xs id)
    (second : m₁.Sourced (answered ++ passed) ys id) : m.Sourced passed (xs ++ ys) id := by
  have later {id : ResultId} (source : m.Sourced passed xs id) : m.Sourced passed (xs ++ ys) id := by
    refine source.imp_right (.imp_right fun logged => ?_)
    rw [List.map_append]
    exact List.mem_append_left _ logged
  rcases second with given | shared | logged
  · rcases List.mem_append.1 given with here | old
    · exact later (first id here)
    · exact .inl old
  · rcases trace.sharedIds id shared with old | new
    · exact .inr (.inl old)
    · exact later (.inr (.inr new))
  · rw [Sourced, List.map_append]
    exact .inr (.inr (List.mem_append_right _ logged))

end Module

namespace Build

/-- Where the ids in the answer come from. -/
def Accounts {α : Type} (x : Build α) [recorded : Recorded x] (ids : α → List ResultId)
    (passed : List ResultId) : Prop :=
  ∀ m, ∀ id ∈ ids (x m).1, m.Sourced passed (recorded.log m) id

section Combining
variable {α β : Type} {passed : List ResultId} {ids : α → List ResultId} {later : β → List ResultId}

theorem Accounts.pure {a : α} (known : ids a ⊆ passed) : (pure a : Build α).Accounts ids passed :=
  fun _ _ member => .inl (known member)

theorem accounts_silent (x : Build α) [Recorded x] : x.Accounts (fun _ => []) passed := by
  simp [Accounts]

theorem Accounts.bind {x : Build α} {f : α → Build β} [recorded : Recorded x]
    [∀ a, Recorded (f a)] (first : x.Accounts ids passed)
    (second : ∀ a, (f a).Accounts later (ids a ++ passed)) : (x >>= f).Accounts later passed :=
  fun m id member => .through (recorded.trace m) (first m) (second (x m).1 (x m).2 id member)

theorem Accounts.after {x : Build α} {f : α → Build β} [Recorded x] [∀ a, Recorded (f a)]
    (second : ∀ a, (f a).Accounts later passed) : (x >>= f).Accounts later passed :=
  (accounts_silent x).bind second

theorem Accounts.map {x : Build α} {f : α → β} [Recorded x]
    (inner : x.Accounts (fun a => later (f a)) passed) : (f <$> x).Accounts later passed := inner

theorem Accounts.ite {c : Prop} [Decidable c] {x y : Build α} [Recorded x] [Recorded y]
    (first : x.Accounts ids passed) (second : y.Accounts ids passed) :
    (if c then x else y).Accounts ids passed := by
  intro m id member
  change m.Sourced passed (if c then Recorded.log x m else Recorded.log y m) id
  split at member
  · rw [if_pos ‹_›]
    exact first m id member
  · rw [if_neg ‹_›]
    exact second m id member

theorem mapM_accounts {f : α → Build β} [each : ∀ a, Recorded (f a)]
    (inner : ∀ a, (f a).Accounts later passed) (xs : List α) :
    (xs.mapM f).Accounts (fun bs => bs.flatMap later) passed := by
  intro m
  induction xs generalizing m with
  | nil => exact fun id member => by cases member
  | cons a as ih =>
    intro id member
    have answers : ((a :: as).mapM f m).1 = (f a m).1 :: (as.mapM f (f a m).2).1 := by
      rw [List.mapM_cons]
      rfl
    simp only [answers, List.flatMap_cons, List.mem_append] at member
    refine .through ((each a).trace m) (inner a m) ?_
    rcases member with first | others
    · exact .inl (List.mem_append_left _ first)
    · exact (ih (f a m).2 id others).imp_left (List.mem_append_right _)

theorem accounts_of_allocates {x : Build ResultId}
    (step : ∀ m, Module.Allocates m (x m).1 (x m).2) :
    @Accounts _ x (.allocating step) (fun id => [id]) passed :=
  fun _ _ member => .inr (.inr member)

end Combining

section Declaring
variable {passed : List ResultId}

theorem declareType_accounts (d : TypeDecl) : (declareType d).Accounts (fun id => [id]) passed := by
  intro m id member
  cases found : assoc? d m.typeIds with
  | none => exact .inr (.inr (by simpa [Recorded.log, found] using member))
  | some known =>
    have same : id = known := by simpa [declareType, found] using member
    have listed : id ∈ m.typeIds.map Prod.snd :=
      List.mem_map.2 ⟨_, mem_of_assoc? found, same.symm⟩
    exact .inr (.inl (List.mem_append_left _ listed))

theorem declareConstant_accounts (d : ConstDecl) :
    (declareConstant d).Accounts (fun id => [id]) passed := by
  intro m id member
  cases found : assoc? d m.constIds with
  | none => exact .inr (.inr (by simpa [Recorded.log, found] using member))
  | some known =>
    have same : id = known := by simpa [declareConstant, found] using member
    have listed : id ∈ m.constIds.map Prod.snd :=
      List.mem_map.2 ⟨_, mem_of_assoc? found, same.symm⟩
    exact .inr (.inl (List.mem_append_right _ listed))

theorem wordConstant_accounts (value : UInt32) :
    (wordConstant value).Accounts (fun id => [id]) passed :=
  .after fun _ => declareConstant_accounts _

theorem floatConstant_accounts (value : Binary32) :
    (floatConstant value).Accounts (fun id => [id]) passed :=
  .after fun _ => declareConstant_accounts _

theorem declareVariable_accounts (d : VarDecl) :
    (declareVariable d).Accounts (fun id => [id]) passed := accounts_of_allocates fun _ => .var d

end Declaring

def AccountsIf {ε α : Type} (x : Except ε (Build α)) [recorded : RecordedIf x]
    (ids : α → List ResultId) (passed : List ResultId) : Prop :=
  ∀ action, x = .ok action → ∀ m, ∀ id ∈ ids (action m).1, m.Sourced passed (recorded.log m) id

section Refusing
variable {ε α β : Type} {passed : List ResultId} {ids : α → List ResultId}
  {later : β → List ResultId}

theorem AccountsIf.ok {action : Build α} [Recorded action] (accounts : action.Accounts ids passed) :
    AccountsIf (.ok action : Except ε (Build α)) ids passed := by
  rintro _ ⟨rfl⟩
  exact accounts

theorem accountsIf_silent (x : Except ε (Build α)) [RecordedIf x] :
    AccountsIf x (fun _ => []) passed := by
  simp [AccountsIf]

theorem AccountsIf.bind {x : Except ε β} {f : β → Except ε (Build α)} [∀ b, RecordedIf (f b)]
    (second : ∀ b, x = .ok b → AccountsIf (f b) ids passed) : AccountsIf (x >>= f) ids passed := by
  intro action done
  cases x with
  | error e => cases done
  | ok b => exact second b rfl action done

theorem AccountsIf.andThen {x : Except ε (Build α)} {f : α → Build β} [recorded : RecordedIf x]
    [∀ a, Recorded (f a)] (first : AccountsIf x ids passed)
    (second : ∀ a, (f a).Accounts later (ids a ++ passed)) :
    AccountsIf (x >>= fun action => pure (action >>= f)) later passed := by
  intro action done m id member
  cases x with
  | error e => cases done
  | ok before =>
    obtain rfl := Except.ok.inj done
    exact .through (recorded.trace before rfl m) (first before rfl m)
      (second (before m).1 (before m).2 id member)

end Refusing
end Build

theorem Edit.perform_accounts (e : Edit) : e.perform.Accounts Option.toList [] := by
  have silent (action : Build Unit) [Recorded action] :
      (silently action).Accounts Option.toList [] := .after fun _ => .pure (List.nil_subset _)
  cases e with
  | freshId => exact .map (Build.accounts_of_allocates fun _ => .freshId)
  | declareType d => exact .map (Build.declareType_accounts d)
  | wordConstant value => exact .map (Build.wordConstant_accounts value)
  | floatConstant value => exact .map (Build.floatConstant_accounts value)
  | compositeConstant type parts => exact .map (Build.declareConstant_accounts _)
  | declareVariable d => exact .map (Build.declareVariable_accounts d)
  | load | compositeInsert | vectorShuffle | accessChain =>
    exact .map (Build.accounts_of_allocates fun _ => .value _ _ _ rfl)
  | _ => exact silent _

section Emitting
variable {passed : List ResultId}
open Build (Accounts AccountsIf)

theorem LogicalType.declareVector_accounts (t : LogicalType) :
    t.declareVector.Accounts (fun id => [id]) passed :=
  .bind (Build.declareType_accounts _) fun _ =>
    .ite (.pure (by simp)) (Build.declareType_accounts _)

theorem LogicalType.declare_accounts (t : LogicalType) :
    t.declare.Accounts (fun id => [id]) passed :=
  .bind t.declareVector_accounts fun _ =>
    .ite (.after fun _ => Build.declareType_accounts _) (.pure (by simp))

theorem PlaceType.declare_accounts (t : PlaceType) : t.declare.Accounts (fun id => [id]) passed :=
  .after fun _ => Build.declareType_accounts _

theorem Value.float_accounts (x : Binary32) : (float x).Accounts (fun v => [v.id]) passed :=
  .bind (Build.floatConstant_accounts x) fun _ => .pure (by simp)

theorem Value.floats_accounts (xs : List Binary32) :
    AccountsIf (floats xs) (fun v => [v.id]) passed := by
  rcases xs with - | ⟨x, - | ⟨y, xs⟩⟩
  · exact .bind fun _ _ => .ok (.after fun _ => .after fun _ =>
      .bind (Build.declareConstant_accounts _) fun _ => .pure (by simp))
  · exact .ok (float_accounts x)
  · exact .bind fun _ _ => .ok (.after fun _ => .after fun _ =>
      .bind (Build.declareConstant_accounts _) fun _ => .pure (by simp))

theorem Value.merge_accounts (dst src : Value) (mask : LaneMask) :
    AccountsIf (dst.merge src mask) (fun v => [v.id]) (dst.id :: src.id :: passed) := by
  refine .bind fun plan _ => .ok ?_
  cases plan with
  | keep | replace => exact .pure (by simp)
  | insert | shuffle =>
    exact .after fun _ => .bind (Build.accounts_of_allocates fun _ => .value _ _ _ rfl) fun _ =>
      .pure (by simp)

theorem Place.load_accounts (p : Place) : p.load.Accounts (fun v => [v.id]) passed :=
  .after fun _ => .bind (Build.accounts_of_allocates fun _ => .value _ _ _ rfl) fun _ =>
    .pure (by simp)

theorem Registers.get_eq_ok {r : Registers} {i : Nat} {p : Place} :
    r.get i = .ok p ↔ r.places[i]? = some p := by
  unfold get get?
  split <;> simp_all

theorem Registers.declareOne_accounts (type : ResultId) (index : Nat) :
    (declareOne type index).Accounts (fun p => [p.id]) passed :=
  .bind (Build.declareVariable_accounts _) fun _ => .after fun _ => .pure (by simp)

theorem Registers.reserve_accounts (r : Registers) (n : Nat)
    (known : r.places.map Place.id ⊆ passed) :
    (r.reserve n).Accounts (fun r => r.places.map Place.id) passed := by
  refine .ite (.pure known) (.after fun type => ?_)
  refine .bind (Build.mapM_accounts (declareOne_accounts type) _) fun fresh => .pure ?_
  intro id member
  rw [List.map_append, List.mem_append] at member
  rcases member with old | new
  · exact List.mem_append_right _ (known old)
  · obtain ⟨p, here, rfl⟩ := List.mem_map.1 new
    exact List.mem_append_left _ (List.mem_flatMap.2 ⟨p, here, List.mem_singleton.2 rfl⟩)

theorem VertexBlock.declare_accounts : declare.Accounts (fun id => [id]) passed :=
  .after fun _ => .bind (Build.declareType_accounts _) fun _ => .after fun _ => .after fun _ =>
    .after fun _ => .after fun _ => .pure (by simp)

theorem VertexBlock.position_accounts (block : ResultId) :
    (position block).Accounts (fun p => [p.id]) passed :=
  .after fun _ => .after fun _ =>
    .bind (Build.accounts_of_allocates fun _ => .value _ _ _ rfl) fun _ => .pure (by simp)

theorem Emitter.start_accounts : Emitter.start.Accounts ids passed :=
  .after fun _ => .after fun _ =>
    .bind (Build.accounts_of_allocates fun _ => .freshId) fun _ => .pure (by simp [ids])

set_option synthInstance.maxSize 256 in
theorem VertexEmitter.start_accounts :
    start.Accounts (fun e => e.output :: e.toEmitter.ids) passed :=
  .bind Emitter.start_accounts fun _ => .after fun _ => .after fun _ =>
    .bind (Build.declareVariable_accounts _) fun _ => .after fun _ => .after fun _ =>
      .after fun _ => .after fun _ => .after fun _ => .after fun _ => .pure (by simp)

theorem VertexEmitter.forStage_accounts (stage : Stage) :
    AccountsIf (forStage stage) (fun e => e.output :: e.toEmitter.ids) passed := by
  intro action done
  cases stage with
  | vertex =>
    obtain rfl := Except.ok.inj done
    exact VertexEmitter.start_accounts
  | _ => cases done

theorem Emitter.perform_keeps (e : Emitter) (d : Directive) :
    AccountsIf (e.perform d) (fun answer => answer.2.ids) e.ids := by
  cases d with
  | reserve count =>
    exact .ok (.bind (e.temps.reserve_accounts count (List.subset_cons_self _ _)) fun temps =>
      .pure (by simp [ids]))
  | register index => exact .bind fun place _ => .ok (.pure (List.Subset.refl _))
  | floats | merge | store =>
    exact .andThen (Build.accountsIf_silent _) fun _ => .pure (List.Subset.refl _)
  | _ => exact .ok (.after fun _ => .pure (List.Subset.refl _))

def Reply.ids : Reply → List ResultId
  | .id word => [word]
  | .value v => [v.id]
  | .place p => [p.id]
  | _ => []

theorem Emitter.perform_replies (e : Emitter) (d : Directive) :
    AccountsIf (e.perform d) (fun answer => answer.1.ids) (d.refs ++ e.ids) := by
  cases d with
  | scalarType kind =>
    exact .ok (.bind (Build.declareType_accounts _) fun _ => .pure (List.subset_append_left _ _))
  | valueType type =>
    exact .ok (.bind type.declare_accounts fun _ => .pure (List.subset_append_left _ _))
  | placeType type =>
    exact .ok (.bind type.declare_accounts fun _ => .pure (List.subset_append_left _ _))
  | float x =>
    exact .ok (.bind (Value.float_accounts x) fun _ => .pure (List.subset_append_left _ _))
  | floats xs =>
    exact .andThen (Value.floats_accounts xs) fun _ => .pure (List.subset_append_left _ _)
  | reserve count => exact .ok (.after fun _ => .pure (List.nil_subset _))
  | register index =>
    refine .bind fun place found => .ok (.pure ?_)
    have held := List.mem_of_getElem? (Registers.get_eq_ok.1 found)
    have listed : place.id ∈ e.ids := List.mem_cons_of_mem _ (List.mem_map_of_mem held)
    exact List.cons_subset.2 ⟨listed, List.nil_subset _⟩
  | merge dst src mask =>
    exact .andThen (Value.merge_accounts dst src mask) fun _ =>
      .pure (List.subset_append_left _ _)
  | load place => exact .ok (.bind place.load_accounts fun _ => .pure (List.subset_append_left _ _))
  | store place value mask =>
    exact .andThen (Build.accountsIf_silent _) fun _ => .pure (List.nil_subset _)
  | vertexBlock =>
    exact .ok (.bind VertexBlock.declare_accounts fun _ => .pure (List.subset_append_left _ _))
  | position block =>
    exact .ok (.bind (VertexBlock.position_accounts block) fun _ =>
      .pure (List.subset_append_left _ _))

def Emitter.answers (e : Emitter) (d : Directive) (m : Module) : List ResultId :=
  match e.perform d with
  | .ok action => (action m).1.1.ids
  | .error _ => []

theorem Emitter.mem_answers {e : Emitter} {d : Directive} {m : Module} {id : ResultId}
    (member : id ∈ e.answers d m) :
    m.Sourced (d.refs ++ e.ids) (RecordedIf.log (e.perform d) m) id := by
  unfold answers at member
  split at member
  · rename_i action obeyed
    exact e.perform_replies d action obeyed m id member
  · cases member

end Emitting

namespace Generator

def ids (g : Generator) : List ResultId := g.output.toList ++ g.emitter.ids

theorem start_accounts : start.Accounts ids [] :=
  .bind Emitter.start_accounts fun _ => .pure (by simp [ids])

theorem forStage_accounts (stage : Stage) : Build.AccountsIf (forStage stage) ids [] :=
  .andThen (VertexEmitter.forStage_accounts stage) fun _ => .pure (by simp [ids])

theorem follow_keeps {g : Generator} {d : Directive} {action : Build (Reply × Emitter)}
    (obeyed : g.emitter.perform d = .ok action) (m : Module) :
    ∀ id ∈ (g.follow action m).1.ids,
      m.Sourced g.ids (RecordedIf.log (g.emitter.perform d) m) id := by
  intro id member
  rcases List.mem_append.1 member with output | kept
  · exact .inl (List.mem_append_left _ output)
  · exact (g.emitter.perform_keeps d action obeyed m id kept).imp_left (List.mem_append_right _)

end Generator

def Operation.args : Operation → List ResultId
  | .edit e => e.args
  | .direct d => d.refs
  | _ => []

namespace Workshop

/-- The ids that are kept for later: by the emitter, and by the module for what it finds again. -/
def kept (w : Workshop) : List ResultId :=
  w.generator.elim [] Generator.ids ++ w.module.sharedIds

theorem ids_subset_kept {w : Workshop} {g : Generator} (here : w.generator = some g) :
    g.ids ⊆ w.kept := by
  rw [kept, here]
  exact List.subset_append_left _ _

def answers (w : Workshop) : Operation → List ResultId
  | .edit e => (e.perform w.module).1.toList
  | .start => (Generator.start w.module).1.ids
  | .startStage stage =>
    match Generator.forStage stage with
    | .ok start => (start w.module).1.ids
    | .error _ => []
  | .direct d =>
    match w.generator with
    | some g => g.emitter.answers d w.module
    | none => []
  | .position =>
    match w.generator with
    | some ⟨emitter, some output⟩ => emitter.answers (.position output) w.module
    | _ => []
  | .finish =>
    match w.generator with
    | some ⟨emitter, some output⟩ => [(VertexEmitter.finish ⟨emitter, output⟩ w.module).1]
    | _ => []

section Running
variable {w w' : Workshop}

theorem kept_begin {start : Build Generator} {passed : List ResultId}
    {log : List (UInt32 × ResultId)} (trace : w.module.Trace log (w.begin start).module)
    (held : ∀ id ∈ (start w.module).1.ids, w.module.Sourced passed log id) (known : passed ⊆ w.kept) :
    ∀ id ∈ (w.begin start).kept, id ∈ w.kept ∨ id ∈ log.map Prod.snd := by
  intro id member
  rcases List.mem_append.1 member with holds | shared
  · rcases held id holds with given | shared | logged
    · exact .inl (known given)
    · exact .inl (List.mem_append_right _ shared)
    · exact .inr logged
  · exact (trace.sharedIds id shared).imp_left (List.mem_append_right _)

theorem Step.kept {op : Operation} (step : w.Step op w') :
    ∀ id ∈ w'.kept, id ∈ w.kept ∨ id ∈ (w.allocations op).map Prod.snd := by
  have trace := step.trace
  cases step with
  | edit e =>
    intro id member
    rcases List.mem_append.1 member with holds | shared
    · exact .inl (List.mem_append_left _ holds)
    · exact (trace.sharedIds id shared).imp_left (List.mem_append_right _)
  | start => exact kept_begin trace (Generator.start_accounts w.module) (List.nil_subset _)
  | startStage found =>
    exact kept_begin trace (Generator.forStage_accounts _ _ found w.module) (List.nil_subset _)
  | unsupported refused => exact fun id member => .inl member
  | @direct d g action here obeyed =>
    -- What is allocated depends on which emitter is at work.
    simp only [allocations, here] at trace ⊢
    exact kept_begin trace (Generator.follow_keeps obeyed w.module) (ids_subset_kept here)
  | @position output g action here own obeyed =>
    obtain ⟨emitter, _⟩ := g
    obtain rfl := own
    simp only [allocations, here] at trace ⊢
    exact kept_begin trace (Generator.follow_keeps obeyed w.module) (ids_subset_kept here)
  | @finish g output here own =>
    intro id member
    exact (trace.sharedIds id member).imp_left (List.mem_append_right _)

theorem performAll_kept {ops : List Operation} (done : w.performAll ops = some w') :
    ∀ id ∈ w'.kept, id ∈ w.kept ∨ id ∈ (w.log ops).map Prod.snd := by
  induction ops generalizing w with
  | nil =>
    cases done
    exact fun id member => .inl member
  | cons op ops ih =>
    obtain ⟨next, first, rest⟩ := Option.bind_eq_some_iff.1 done
    intro id member
    rw [log, first, List.map_append, List.mem_append]
    rcases ih rest id member with old | new
    · exact ((step_of_perform first).kept id old).imp_right .inl
    · exact .inr (.inr new)

theorem source_kept {passed args : List ResultId} {log : List (UInt32 × ResultId)} {id : ResultId}
    (source : w.module.Sourced passed log id) (known : id ∈ passed → id ∈ args ∨ id ∈ w.kept) :
    id ∈ args ∨ id ∈ w.kept ∨ id ∈ log.map Prod.snd := by
  rcases source with given | shared | logged
  · exact (known given).imp_right .inl
  · exact .inr (.inl (List.mem_append_right _ shared))
  · exact .inr (.inr logged)

/-- What an operation answers was passed to it, kept for it or is allocated by it. -/
theorem mem_answers {op : Operation} {id : ResultId} (member : id ∈ w.answers op) :
    id ∈ op.args ∨ id ∈ w.kept ∨ id ∈ (w.allocations op).map Prod.snd := by
  cases op with
  | edit e => exact source_kept (e.perform_accounts w.module id member) (by simp)
  | start => exact source_kept (Generator.start_accounts w.module id member) (by simp)
  | startStage stage =>
    simp only [answers] at member
    split at member
    · rename_i start found
      exact source_kept (Generator.forStage_accounts stage start found w.module id member) (by simp)
    · cases member
  | direct d =>
    cases here : w.generator with
    | none => simp [answers, here] at member
    | some g =>
      simp only [answers, allocations, here] at member ⊢
      refine source_kept (Emitter.mem_answers member) fun given => ?_
      refine (List.mem_append.1 given).imp_right fun own => ?_
      exact ids_subset_kept here (List.mem_append_right _ own)
  | position =>
    rcases here : w.generator with - | ⟨emitter, - | output⟩
    · simp [answers, here] at member
    · simp [answers, here] at member
    · simp only [answers, allocations, here] at member ⊢
      exact source_kept (Emitter.mem_answers member) fun own => .inr (ids_subset_kept here own)
  | finish =>
    rcases here : w.generator with - | ⟨emitter, - | output⟩
    · simp [answers, here] at member
    · simp [answers, here] at member
    · simp only [answers, here] at member
      have entry : id = emitter.entry := List.mem_singleton.1 member
      exact .inr (.inl (ids_subset_kept here (by simp [Generator.ids, Emitter.ids, entry])))

end Running
end Workshop
end Shader
