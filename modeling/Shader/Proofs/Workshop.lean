import Shader.Proofs.Tracing
import Shader.Proofs.WellFormedness

/-!
Building and emitting mixed. A module may be edited by hand while code is emitted into it, and
emitters may be given up halfway. Whatever the operations, a run is made of the steps of building,
and what each operation allocates can be computed.
-/

namespace Shader
open Build (Recorded RecordedIf)

section Emitting

instance (kind : ScalarKind) : Recorded kind.declare :=
  inferInstanceAs (Recorded (Build.declareType _))

instance (t : LogicalType) : Recorded t.declareVector := by
  delta LogicalType.declareVector
  infer_instance

instance (t : LogicalType) : Recorded t.declare := by
  delta LogicalType.declare
  infer_instance

instance (t : PlaceType) : Recorded t.declare := by
  delta PlaceType.declare
  infer_instance

instance (x : Binary32) : Recorded (Value.float x) := by
  delta Value.float
  infer_instance

instance (width : Width) (xs : List Binary32) : Recorded (Value.floatVector width xs) := by
  delta Value.floatVector
  infer_instance

instance (xs : List Binary32) : RecordedIf (Value.floats xs) := by
  rcases xs with - | ⟨x, - | ⟨y, xs⟩⟩ <;> dsimp only [Value.floats] <;> infer_instance

instance (p : Place) : Recorded p.load := by
  delta Place.load
  infer_instance

instance (dst src : Value) (plan : Merge) : Recorded (plan.emit dst src) := by
  cases plan <;> dsimp only [Merge.emit] <;> infer_instance

instance (dst src : Value) (mask : LaneMask) : RecordedIf (dst.merge src mask) := by
  delta Value.merge
  infer_instance

instance (p : Place) (value : Value) (plan : Merge) : Recorded (p.storeMerged value plan) := by
  delta Place.storeMerged
  infer_instance

instance (p : Place) (value : Value) (mask : LaneMask) : RecordedIf (p.store value mask) := by
  dsimp only [Place.store]
  infer_instance

instance (type : ResultId) (index : Nat) : Recorded (Registers.declareOne type index) := by
  delta Registers.declareOne
  infer_instance

instance (r : Registers) (n : Nat) (f : Nat → Build Place) [∀ i, Recorded (f i)] :
    Recorded (r.grow n f) := by
  delta Registers.grow
  infer_instance

instance (r : Registers) (n : Nat) : Recorded (r.reserve n) := by
  delta Registers.reserve
  infer_instance

instance : Recorded VertexBlock.declare := by
  delta VertexBlock.declare
  infer_instance

instance (block : ResultId) : Recorded (VertexBlock.position block) := by
  delta VertexBlock.position
  infer_instance

instance : Recorded Emitter.start := by
  delta Emitter.start
  infer_instance

instance : Recorded VertexEmitter.declareFunctionType := by
  delta VertexEmitter.declareFunctionType
  infer_instance

instance (void entry type : ResultId) : Recorded (VertexEmitter.openFunction void entry type) := by
  delta VertexEmitter.openFunction
  infer_instance

set_option synthInstance.maxSize 256 in
instance : Recorded VertexEmitter.start := by
  delta VertexEmitter.start
  infer_instance

instance (e : VertexEmitter) : Recorded e.finish := by
  delta VertexEmitter.finish
  infer_instance

instance (stage : Stage) : RecordedIf (VertexEmitter.forStage stage) where
  log m :=
    match stage with
    | .vertex => Recorded.log VertexEmitter.start m
    | _ => []
  trace action done m := by
    cases stage with
    | vertex =>
      obtain rfl := Except.ok.inj done
      exact Recorded.trace m
    | _ => cases done

instance (e : Emitter) (d : Directive) : RecordedIf (e.perform d) := by
  cases d <;> dsimp only [Emitter.perform] <;> infer_instance

end Emitting

structure Generator where
  emitter : Emitter
  output : Option ResultId := none
deriving DecidableEq, Repr

namespace Generator

def start : Build Generator := do
  let emitter ← Emitter.start
  return ⟨emitter, none⟩

def forStage (stage : Stage) : Except ProgramError (Build Generator) := do
  let start ← VertexEmitter.forStage stage
  return do
    let e ← start
    return ⟨e.toEmitter, some e.output⟩

def follow (g : Generator) (action : Build (Reply × Emitter)) : Build Generator := do
  let answer ← action
  return { g with emitter := answer.2 }

instance : Recorded start := by
  delta start
  infer_instance

instance (stage : Stage) : RecordedIf (forStage stage) := by
  delta forStage
  infer_instance

theorem forStage_eq_ok {stage : Stage} {start : Build Generator} (done : forStage stage = .ok start) :
    start = do
      let e ← VertexEmitter.start
      return ⟨e.toEmitter, some e.output⟩ := by
  obtain ⟨begun, found, same⟩ := bind_eq_ok.1 done
  cases stage with
  | vertex =>
    obtain rfl := Except.ok.inj found
    exact (Except.ok.inj same).symm
  | _ => cases found

end Generator

inductive Operation where
  | edit (e : Edit)
  | start
  | startStage (stage : Stage)
  | direct (d : Directive)
  | position
  | finish
deriving DecidableEq, Repr

/-- A module with the emitter at work on it. -/
structure Workshop where
  module : Module := .empty
  generator : Option Generator := none
deriving DecidableEq

namespace Workshop

/-- Has an emitter begin its work. The one before is dropped. -/
def begin (w : Workshop) (start : Build Generator) : Workshop :=
  ⟨(start w.module).2, some (start w.module).1⟩

/-- Has the emitter carry out a directive. Misuse ends the run. -/
def direct (w : Workshop) (d : Directive) : Option Workshop := do
  let g ← w.generator
  match g.emitter.perform d with
  | .error _ => none
  | .ok action => some (w.begin (g.follow action))

def perform (w : Workshop) : Operation → Option Workshop
  | .edit e => some { w with module := w.module.edit e }
  | .start => some (w.begin Generator.start)
  | .startStage stage =>
    match Generator.forStage stage with
    | .error _ => some w
    | .ok start => some (w.begin start)
  | .direct d => w.direct d
  | .position => do
    let g ← w.generator
    let output ← g.output
    w.direct (.position output)
  | .finish => do
    let g ← w.generator
    let output ← g.output
    some { module := (VertexEmitter.finish ⟨g.emitter, output⟩ w.module).2 }

def performAll : Workshop → List Operation → Option Workshop
  | w, [] => some w
  | w, op :: ops => do
    let next ← w.perform op
    performAll next ops

inductive Step (w : Workshop) : Operation → Workshop → Prop where
  | edit (e : Edit) : Step w (.edit e) { w with module := w.module.edit e }
  | start : Step w .start (w.begin Generator.start)
  | startStage {stage : Stage} {start : Build Generator}
      (found : Generator.forStage stage = .ok start) : Step w (.startStage stage) (w.begin start)
  | unsupported {stage : Stage} {error : ProgramError}
      (refused : Generator.forStage stage = .error error) : Step w (.startStage stage) w
  | direct {d : Directive} {g : Generator} {action : Build (Reply × Emitter)}
      (here : w.generator = some g) (obeyed : g.emitter.perform d = .ok action) :
      Step w (.direct d) (w.begin (g.follow action))
  | position {output : ResultId} {g : Generator} {action : Build (Reply × Emitter)}
      (here : w.generator = some g) (own : g.output = some output)
      (obeyed : g.emitter.perform (.position output) = .ok action) :
      Step w .position (w.begin (g.follow action))
  | finish {g : Generator} {output : ResultId} (here : w.generator = some g)
      (own : g.output = some output) :
      Step w .finish { module := (VertexEmitter.finish ⟨g.emitter, output⟩ w.module).2 }

theorem direct_eq_some {w w' : Workshop} {d : Directive} (done : w.direct d = some w') :
    ∃ g action, w.generator = some g ∧ g.emitter.perform d = .ok action ∧
      w' = w.begin (g.follow action) := by
  obtain ⟨g, here, rest⟩ := Option.bind_eq_some_iff.1 done
  split at rest
  · cases rest
  · rename_i action obeyed
    exact ⟨g, action, here, obeyed, (Option.some.inj rest).symm⟩

theorem step_of_perform {w w' : Workshop} {op : Operation} (done : w.perform op = some w') :
    w.Step op w' := by
  cases op with
  | edit e =>
    obtain rfl := Option.some.inj done
    exact .edit e
  | start =>
    obtain rfl := Option.some.inj done
    exact .start
  | startStage stage =>
    simp only [perform] at done
    split at done
    · rename_i refused
      obtain rfl := Option.some.inj done
      exact .unsupported refused
    · rename_i start found
      obtain rfl := Option.some.inj done
      exact .startStage found
  | direct d =>
    obtain ⟨g, action, here, obeyed, rfl⟩ := direct_eq_some done
    exact .direct here obeyed
  | position =>
    obtain ⟨g, here, rest⟩ := Option.bind_eq_some_iff.1 done
    obtain ⟨output, own, directed⟩ := Option.bind_eq_some_iff.1 rest
    obtain ⟨g', action, here', obeyed, rfl⟩ := direct_eq_some directed
    obtain rfl := Option.some.inj (here.symm.trans here')
    exact .position here own obeyed
  | finish =>
    obtain ⟨g, here, rest⟩ := Option.bind_eq_some_iff.1 done
    obtain ⟨output, own, same⟩ := Option.bind_eq_some_iff.1 rest
    obtain rfl := Option.some.inj same
    exact .finish here own

/-- What an operation allocates: the bound before each allocation, and the id. -/
def allocations (w : Workshop) : Operation → List (UInt32 × ResultId)
  | .edit e => Recorded.log e.perform w.module
  | .start => Recorded.log Generator.start w.module
  | .startStage stage => RecordedIf.log (Generator.forStage stage) w.module
  | .direct d =>
    match w.generator with
    | some g => RecordedIf.log (g.emitter.perform d) w.module
    | none => []
  | .position =>
    match w.generator with
    | some ⟨emitter, some output⟩ => RecordedIf.log (emitter.perform (.position output)) w.module
    | _ => []
  | .finish =>
    match w.generator with
    | some ⟨emitter, some output⟩ => Recorded.log (VertexEmitter.finish ⟨emitter, output⟩) w.module
    | _ => []

def log : Workshop → List Operation → List (UInt32 × ResultId)
  | _, [] => []
  | w, op :: ops => w.allocations op ++ (w.perform op).elim [] fun next => log next ops

theorem Step.trace {w w' : Workshop} {op : Operation} (step : w.Step op w') :
    w.module.Trace (w.allocations op) w'.module := by
  cases step with
  | edit e => exact Recorded.trace (x := e.perform) w.module
  | start => exact Recorded.trace (x := Generator.start) w.module
  | startStage found => exact RecordedIf.trace _ found w.module
  | @unsupported stage error refused =>
    cases stage with
    | vertex => cases refused
    | _ => exact .done _
  | @direct d g action here obeyed =>
    simp only [allocations, here]
    exact RecordedIf.trace action obeyed w.module
  | @position output g action here own obeyed =>
    obtain ⟨emitter, _⟩ := g
    obtain rfl := own
    simp only [allocations, here]
    exact RecordedIf.trace action obeyed w.module
  | @finish g output here own =>
    obtain ⟨emitter, _⟩ := g
    obtain rfl := own
    simp only [allocations, here]
    exact Recorded.trace (x := VertexEmitter.finish ⟨emitter, output⟩) w.module

theorem performAll_trace {w w' : Workshop} {ops : List Operation}
    (done : w.performAll ops = some w') : w.module.Trace (w.log ops) w'.module := by
  induction ops generalizing w with
  | nil =>
    cases done
    exact .done _
  | cons op ops ih =>
    obtain ⟨next, first, rest⟩ := Option.bind_eq_some_iff.1 done
    rw [log, first]
    exact (step_of_perform first).trace.append (ih rest)

theorem log_concat {w w' : Workshop} {ops : List Operation} (done : w.performAll ops = some w')
    (op : Operation) : w.log (ops ++ [op]) = w.log ops ++ w'.allocations op := by
  induction ops generalizing w with
  | nil =>
    obtain rfl := Option.some.inj done
    cases next : w.perform op <;> simp [log, next]
  | cons first ops ih =>
    obtain ⟨next, stepped, rest⟩ := Option.bind_eq_some_iff.1 done
    simp [log, stepped, ih rest]

end Workshop
end Shader
