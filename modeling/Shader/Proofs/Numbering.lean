import Shader.Proofs.Provenance

/-!
Ids are numbers in order. Main statement: along any mixture of building and emitting, the ids that
are allocated are one, two, three and so on, each the bound of the module at its time; and if no
operation was passed an id at or above the bound, no id in the module is.
-/

namespace Shader
open Instruction (results)

namespace Generator

theorem start_confines {m : Module} (bounded : m.Bounded) : start.Confines m ids := by
  refine (Emitter.start_confines bounded).bind inferInstance ?_
  intro emitter m₁ bounded₁ le₁ given
  exact .pure bounded₁ given

theorem forStage_confines {m : Module} (bounded : m.Bounded) {stage : Stage}
    {start : Build Generator} (done : forStage stage = .ok start) : start.Confines m ids := by
  rw [forStage_eq_ok done]
  refine (VertexEmitter.start_confines bounded).bind inferInstance ?_
  intro e m₁ bounded₁ le₁ given
  exact .pure bounded₁ given

theorem follow_confines {m : Module} {g : Generator} (given : m.Given g.ids)
    {action : Build (Reply × Emitter)} (inner : action.Confines m fun answer => answer.2.ids) :
    (g.follow action).Confines m ids := by
  refine inner.bind inferInstance ?_
  intro answer m₁ bounded₁ le₁ emitterGiven
  refine .pure bounded₁ ?_
  intro id member
  rcases List.mem_append.1 member with output | kept
  · exact given.mono le₁ id (List.mem_append_left _ output)
  · exact emitterGiven id kept

end Generator

namespace Workshop

structure Bounded (w : Workshop) : Prop where
  module : w.module.Bounded
  generator : ∀ g, w.generator = some g → w.module.Given g.ids

def passesBelow : Workshop → List Operation → Bool
  | _, [] => true
  | w, op :: ops => op.args.all (fun id => id.word < w.module.bound) &&
      (w.perform op).all fun next => passesBelow next ops

section Running
variable {w w' : Workshop}

theorem bounded_begin {start : Build Generator} (confines : start.Confines w.module Generator.ids)
    (fit : (w.begin start).module.IdsFit) : (w.begin start).Bounded := by
  obtain ⟨bounded, -, given⟩ := confines fit
  refine ⟨bounded, ?_⟩
  intro g here
  obtain rfl := Option.some.inj here
  exact given

theorem Step.bounded {op : Operation} (step : w.Step op w') (fit : w'.module.IdsFit)
    (passed : w.module.Given op.args) (bounded : w.Bounded) : w'.Bounded := by
  cases step with
  | edit e =>
    obtain ⟨after, le, -⟩ := Edit.perform_confines bounded.module passed fit
    exact ⟨after, fun g here => (bounded.generator g here).mono le⟩
  | start => exact bounded_begin (Generator.start_confines bounded.module) fit
  | startStage found => exact bounded_begin (Generator.forStage_confines bounded.module found) fit
  | unsupported refused => exact bounded
  | @direct d g action here obeyed =>
    have given := bounded.generator g here
    have kept : w.module.Given g.emitter.ids := given.subset (List.subset_append_right _ _)
    exact bounded_begin (Generator.follow_confines given
      (Emitter.perform_confines bounded.module passed kept obeyed)) fit
  | @position output g action here own obeyed =>
    have given := bounded.generator g here
    have kept : w.module.Given g.emitter.ids := given.subset (List.subset_append_right _ _)
    have block : w.module.Given [output] := given.subset (by simp [Generator.ids, own])
    exact bounded_begin (Generator.follow_confines given
      (Emitter.perform_confines bounded.module (d := .position output) block kept obeyed)) fit
  | @finish g output here own =>
    have given := bounded.generator g here
    have listed : w.module.Given [g.emitter.entry, output] :=
      given.subset (by simp [Generator.ids, Emitter.ids, own])
    obtain ⟨after, -⟩ := VertexEmitter.finish_confines bounded.module
      (e := ⟨g.emitter, output⟩) listed fit
    exact ⟨after, fun g none => by cases none⟩

theorem issued_le_performAll {ops : List Operation} (done : w.performAll ops = some w') :
    w.module.issued ≤ w'.module.issued := by
  rw [(performAll_trace done).issued]
  exact Nat.le_add_right _ _

theorem performAll_bounded {ops : List Operation} (done : w.performAll ops = some w')
    (fit : w'.module.IdsFit) (passes : w.passesBelow ops) (bounded : w.Bounded) : w'.Bounded := by
  induction ops generalizing w with
  | nil =>
    cases done
    exact bounded
  | cons op ops ih =>
    obtain ⟨next, first, rest⟩ := Option.bind_eq_some_iff.1 done
    have step := step_of_perform first
    have fitNext : next.module.IdsFit := fit.of_le (issued_le_performAll rest)
    have fitHere : w.module.IdsFit := fit.of_le (issued_le_performAll done)
    simp only [passesBelow, Bool.and_eq_true, List.all_eq_true, decide_eq_true_eq, first,
      Option.all_some] at passes
    have passed : w.module.Given op.args :=
      fun id member => (Module.lt_bound_iff fitHere).1 (passes.1 id member)
    exact ih rest passes.2 (step.bounded fitNext passed bounded)

end Running

theorem bounded_empty : ({} : Workshop).Bounded where
  module := Module.given_nil
  generator g here := by cases here

end Workshop

namespace Module.Trace

theorem indices {m m' : Module} {log : List (UInt32 × ResultId)} (trace : m.Trace log m')
    (fit : m'.IdsFit) :
    log.map (fun entry => entry.2.index) = List.range' (m.issued + 1) log.length := by
  induction trace with
  | done m => rfl
  | @allocate m m₁ m₂ id log step rest ih =>
    have before : m.IdsFit := by
      have here := step.issued
      have later := rest.issued
      exact fit.of_le (by omega)
    rw [List.map_cons, List.length_cons, List.range'_succ, ih fit, step.issued, step.cases.1,
      index_freshId before]
  | write step rest ih =>
    rw [ih fit, step.issued]

theorem given {m m' : Module} {log : List (UInt32 × ResultId)} (trace : m.Trace log m')
    (fit : m'.IdsFit) : ∀ entry ∈ log, entry.2.index ≤ m'.issued := by
  intro entry member
  have listed : entry.2.index ∈ log.map fun entry => entry.2.index := List.mem_map_of_mem member
  rw [trace.indices fit, List.mem_range'_1] at listed
  rw [trace.issued]
  omega

theorem word_eq_bound {m m' : Module} {log : List (UInt32 × ResultId)} (trace : m.Trace log m') :
    ∀ entry ∈ log, entry.2.word = entry.1 := by
  induction trace with
  | done m => simp
  | @allocate m m₁ m₂ id log step rest ih =>
    intro entry member
    rcases List.mem_cons.1 member with rfl | later
    · rw [step.cases.1]
      rfl
    · exact ih entry later
  | write step rest ih => exact ih

end Module.Trace

namespace Workshop

/-- Along every run that stays below the largest number, the allocated ids are the numbers from one
on, each the bound at its time and none given out twice, and the bound counts them; whatever the next
operation answers is passed to it or allocated by then; declarations stand in the order of their ids;
and ids at or above the bound come from outside only. -/
theorem ids_consecutive_below_bound {ops : List Operation} {w : Workshop}
    (run : performAll {} ops = some w) (fit : w.module.IdsFit) :
    Module.empty.Trace (log {} ops) w.module ∧
    (log {} ops).map (fun entry => entry.2.index) = List.range' 1 (log {} ops).length ∧
    (∀ entry ∈ log {} ops, entry.2.word = entry.1) ∧ ((log {} ops).map Prod.snd).Nodup ∧
    w.module.bound.toNat = (log {} ops).length + 1 ∧
    (∀ op, log {} (ops ++ [op]) = log {} ops ++ w.allocations op ∧
      ∀ id ∈ w.answers op, id ∈ op.args ∨ id ∈ (log {} (ops ++ [op])).map Prod.snd) ∧
    (results w.module.globals).Pairwise (· < ·) ∧
    (passesBelow {} ops → ∀ id ∈ w.module.ids, id.word < w.module.bound) := by
  have trace := performAll_trace run
  have numbers := trace.indices fit
  refine ⟨trace, numbers, trace.word_eq_bound, ?_, ?_, ?_, ?_, ?_⟩
  · have distinct : ((log {} ops).map fun entry => entry.2.index).Nodup :=
      numbers ▸ List.nodup_range'
    refine List.pairwise_map.2 ((List.pairwise_map.1 distinct).imp ?_)
    intro a b differ same
    exact differ (congrArg ResultId.index same)
  · rw [Module.toNat_bound fit, trace.issued]
    simp [Module.empty]
  · intro op
    have whole := log_concat run op
    refine ⟨whole, fun id member => ?_⟩
    rw [whole, List.map_append, List.mem_append]
    refine (mem_answers member).imp_right (.imp_left fun kept => ?_)
    exact (performAll_kept run id kept).resolve_left List.not_mem_nil
  · exact (trace.numbered fit Module.numbered_empty).declared
  · intro passes id member
    have bounded := performAll_bounded run fit passes bounded_empty
    exact (Module.lt_bound_iff fit).2 (bounded.module id member)

/-- A type declared by hand is found by an emitter, a second emitter is dropped halfway, and a name
is attached at the end. -/
def sharedWork : List Operation :=
  [.edit (.declareType (.float 32)), .startStage .vertex, .direct (.reserve 2),
    .direct (.float ⟨1⟩), .edit (.wordConstant 7), .position, .finish, .startStage .pixel, .start,
    .direct (.floats [⟨1⟩, ⟨2⟩, ⟨3⟩]), .edit (.name ⟨1⟩ "number")]

theorem sharedWork_below_bound :
    ∃ w, performAll {} sharedWork = some w ∧ w.module.IdsFit ∧ passesBelow {} sharedWork ∧
      (log {} sharedWork).length = 25 ∧ ((log {} sharedWork).map Prod.snd).Nodup ∧
      w.module.bound = 26 ∧ ∀ id ∈ w.module.ids, id.word < w.module.bound := by
  have runs : (performAll {} sharedWork).any (fun w => decide w.module.IdsFit) = true := by
    decide +kernel
  have passes : passesBelow {} sharedWork = true := by decide +kernel
  have count : (log {} sharedWork).length = 25 := by decide +kernel
  cases run : performAll {} sharedWork with
  | none => simp [run] at runs
  | some w =>
    have fit : w.module.IdsFit := by simpa [run] using runs
    obtain ⟨-, -, -, distinct, bound, -, -, below⟩ := ids_consecutive_below_bound run fit
    refine ⟨w, rfl, fit, passes, count, distinct, ?_, below passes⟩
    rw [count] at bound
    exact UInt32.toNat_inj.1 bound

end Workshop
end Shader
