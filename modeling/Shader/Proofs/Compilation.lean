import Shader.Proofs.Following
import Shader.Proofs.WellFormedness

/-!
Emitted programs compute what they mean. Each command carries the machine on as it carries on the
lanes, so a finished program runs and leaves behind what its commands say.
-/

namespace Shader
open Build (Ensures Monotone)
open Contents (ofLane ofLanes)
open Instruction (results)

namespace Session
variable {s : Session} {a : LaneMachine} {m : Module} {body : List Instruction} {t : Machine}

/-- A directive leads to a machine with the lanes that its command gives. -/
def Advances (s : Session) (m : Module) (body : List Instruction) (a' : LaneMachine)
    (answer : Reply × Emitter) (m' : Module) : Prop :=
  ∃ is t', m.Carries body is m' t' ∧ (s.answered answer.1 answer.2).Follows a' t'

section Commands
variable (reaches : m.Reaches body t) (follows : s.Follows a t)
include reaches follows

theorem declare_advances {declare : Build ResultId}
    (quiet : declare.Ensures m fun _ m' => m.Quiet m') :
    (declare >>= fun id => pure (Reply.id id, s.emitter.toEmitter)).Ensures m
      (s.Advances m body a) := by
  refine quiet.bind inferInstance ?_
  intro id m' grown
  obtain ⟨t', carries, retains⟩ := reaches.quiet grown
  exact .pure ⟨[], t', carries, follows.retains retains⟩

theorem float_advances (x : Binary32) :
    (Value.float x >>= fun v => pure (Reply.value v, s.emitter.toEmitter)).Ensures m
      (s.Advances m body (a.answer [x])) := by
  refine (Value.float_quiet reaches.sound x).bind inferInstance ?_
  rintro v m' ⟨quiet, -, type, declared⟩
  obtain ⟨t', carries, retains⟩ := reaches.quiet quiet
  obtain ⟨start, c, boots, value, known⟩ := carries.reaches.constant declared
  cases value
  exact .pure ⟨[], t', carries, (follows.retains retains).answer known⟩

theorem floatVector_advances (width : Width) {xs : List Binary32} (several : 2 ≤ xs.length) :
    (Value.floatVector width xs >>= fun v => pure (Reply.value v, s.emitter.toEmitter)).Ensures m
      (s.Advances m body (a.answer xs)) := by
  refine (Value.floatVector_quiet reaches.sound width xs).bind inferInstance ?_
  rintro v m' ⟨quiet, -, type, parts, declared, lanes⟩
  obtain ⟨t', carries, retains⟩ := reaches.quiet quiet
  obtain ⟨start, c, boots, value, known⟩ := carries.reaches.constant declared
  obtain ⟨cs, found, same⟩ := bind_eq_ok.1 value
  cases same
  have each : List.Forall₂ (fun part c => start.value part = .ok c) parts (xs.map ofLane) := by
    rw [List.forall₂_map_right_iff]
    refine lanes.flip.imp ?_
    rintro part x ⟨type, constant⟩
    obtain ⟨c, there, isFloat⟩ := Machine.boot_constant quiet.sound.coherent boots constant
    cases isFloat
    exact Machine.value_of_get there
  rw [mapM_eq_ok.2 each] at found
  cases found
  refine .pure ⟨[], t', carries, (follows.retains retains).answer ?_⟩
  rw [known, Contents.ofLanes_of_several several]

theorem reserve_advances (fits : s.Fits a) (n : Nat) :
    (s.emitter.temps.reserve n >>= fun temps =>
      pure (Reply.count temps.size, { s.emitter.toEmitter with temps := temps })).Ensures m
      (s.Advances m body
        { a with temps := a.temps ++ List.replicate (n - a.temps.length) zeroLanes }) := by
  refine (Registers.reserve_quiet reaches.sound s.emitter.temps n).bind inferInstance ?_
  rintro r m' ⟨quiet, fresh, grown, length, distinct, allNew⟩
  obtain ⟨t', reached, retains, beyond⟩ := reaches.grow quiet.sound quiet.extension
  obtain ⟨start, boots⟩ := quiet.sound.boots
  have zeros : t'.HoldsAll fresh (List.replicate (n - a.temps.length) zeroLanes) := by
    rw [← fits.temps, ← Registers.size, ← length, ← List.map_const', Machine.HoldsAll,
      List.forall₂_map_right_iff, List.forall₂_same]
    intro p member
    have isNew := allNew p member
    obtain ⟨pointer, declared, value, isValue, points⟩ := isNew.declared
    obtain ⟨pointee, storage, c, typed, zero, held⟩ :=
      Machine.boot_variable quiet.sound.coherent boots declared
    rw [points] at typed
    cases typed
    rw [isValue.zero quiet.sound] at zero
    cases zero
    rw [beyond start boots p.id isNew.new, held]
    rfl
  have kept := follows.retains retains
  -- What is in memory was declared earlier, so its ids are apart from those of the new registers.
  have given : ∀ id ∈ s.emitter.output :: s.emitter.temps.places.map Place.id,
      id.index ≤ m.issued := by
    intro id member
    refine reaches.sound.coherent.given id ?_
    rcases List.mem_cons.1 member with rfl | register
    · obtain ⟨others, held⟩ := follows.output
      exact reaches.memory_declared held
    · obtain ⟨p, there, rfl⟩ := List.mem_map.1 register
      obtain ⟨lanes, held⟩ := exists_of_mem_forall₂ follows.temps.flip p there
      exact reaches.memory_declared held
  refine .pure ⟨[], t', ⟨quiet.emits _, by simpa using reached⟩, ?_⟩
  refine { kept with temps := ?_, distinct := ?_ }
  · change t'.HoldsAll r.places _
    rw [grown]
    exact List.rel_append kept.temps zeros
  · change (s.emitter.output :: r.places.map Place.id).Nodup
    rw [grown, List.map_append, ← List.cons_append, List.nodup_append]
    refine ⟨follows.distinct, distinct, ?_⟩
    rintro id old other new rfl
    obtain ⟨p, member, rfl⟩ := List.mem_map.1 new
    have below := given _ old
    have above := (allNew p member).new
    omega

theorem position_advances :
    (VertexBlock.position s.emitter.output >>= fun p =>
      pure (Reply.place p, s.emitter.toEmitter)).Ensures m
      (s.Advances m body { a with places := a.places ++ [.position] }) := by
  obtain ⟨others, held⟩ := follows.output
  refine (VertexBlock.position_emits reaches.sound (reaches.mem_scope_of_variable held)).bind
    inferInstance ?_
  rintro p m' ⟨-, type, member, word, zero, emits⟩
  have step : ∀ u, m'.Reaches body u → t.Retains u →
      u.step ⟨.opAccessChain, some p.id, some type, [.ref s.emitter.output, .ref member]⟩ =
        .ok (u.defining p.id (.address s.emitter.output [0])) := by
    intro u reached retains
    obtain ⟨start, c, boots, value, known⟩ := reached.constant zero
    cases value
    have cell : u.cell s.emitter.output = .ok (s.emitter.output, []) := by
      simp [Machine.cell, Table.contains, retains.memory _ _ held]
    have found : u.indices .opAccessChain 1 ([member].map .ref) = .ok [0] := by
      simp [Machine.indices, Operand.ref?, Machine.index, Machine.value_of_get known]
      rfl
    exact Machine.step_accessChain cell found
  obtain ⟨t', carries, retains, value, apart⟩ := reaches.define emits rfl step
  exact .pure ⟨_, t', carries, (follows.retains retains).point fun _ => ⟨value, apart⟩⟩

variable (fits : s.Fits a)
include fits

theorem merge_advances {dst src : Nat} {v w : Value} {xs ys : List Binary32}
    (isDst : s.values[dst]? = some v) (isSrc : s.values[src]? = some w)
    (dstLanes : a.values[dst]? = some xs) (srcLanes : a.values[src]? = some ys) {mask : LaneMask}
    (admits : mask.Admits xs.length ys.length) {merge : Build Value}
    (merged : v.merge w mask = .ok merge) :
    (merge >>= fun v => pure (Reply.value v, s.emitter.toEmitter)).Ensures m
      (s.Advances m body (a.answer (mask.mergeLanes xs ys))) := by
  obtain ⟨v', found, dstCount⟩ := fits.value dstLanes
  obtain rfl : v = v' := Option.some.inj (isDst.symm.trans found)
  obtain ⟨w', found, srcCount⟩ := fits.value srcLanes
  obtain rfl : w = w' := Option.some.inj (isSrc.symm.trans found)
  obtain ⟨plan, planned, yields⟩ := Merge.plan_yields dstCount srcCount admits
  obtain ⟨plan', planned', same⟩ := bind_eq_ok.1 merged
  obtain rfl : plan = plan' := Except.ok.inj (planned.symm.trans planned')
  obtain rfl := Except.ok.inj same
  have small : xs.length ≤ 4 := dstCount ▸ v.type.width.count_le_four
  refine (Merge.emit_carries reaches (follows.value isDst dstLanes) (follows.value isSrc srcLanes)
    yields (LaneMask.length_mergeLanes ..) small).bind inferInstance ?_
  rintro u m' ⟨is, t', carries, retains, value⟩
  exact .pure ⟨is, t', carries, (follows.retains retains).answer value⟩

theorem load_carries {k : Nat} {p : Place} {target : Target} (there : s.places[k]? = some p)
    (same : a.places[k]? = some target) :
    p.load.Ensures m fun v m' => ∃ is t', m.Carries body is m' t' ∧ t.Retains t' ∧
      t'.values.get? v.id = some (ofLanes (a.read target)) := by
  obtain ⟨var, path, c, cell, -⟩ := follows.access fits there same
  refine (Place.load_emits reaches.sound (reaches.mem_scope_of_cell cell)).imp ?_
  rintro v m' ⟨-, type, emits⟩
  have step : ∀ u, m'.Reaches body u → t.Retains u →
      u.step ⟨.opLoad, some v.id, some type, [.ref p.id]⟩ =
        .ok (u.defining v.id (ofLanes (a.read target))) := by
    intro u reached retains
    obtain ⟨var, path, c, cell, held, read, -⟩ := (follows.retains retains).access fits there same
    exact Machine.step_load cell held read
  obtain ⟨t', carries, retains, value, -⟩ := reaches.define emits rfl step
  exact ⟨_, t', carries, retains, value⟩

theorem store_carries {k : Nat} {p : Place} {target : Target} (there : s.places[k]? = some p)
    (same : a.places[k]? = some target) {id : ResultId} {lanes : List Binary32}
    (value : t.values.get? id = some (ofLanes lanes)) :
    (Build.store p.id id).Ensures m fun _ m' => ∃ is t', m.Carries body is m' t' ∧
      s.Follows (a.write lanes target) t' := by
  obtain ⟨var, path, c, cell, -⟩ := follows.access fits there same
  refine (Build.store_emits reaches.sound (reaches.mem_scope_of_cell cell)
    (reaches.mem_scope_of_value value)).imp ?_
  intro _ m' emits
  obtain ⟨u, grown, retains, -⟩ := reaches.grow emits.sound emits.extension
  obtain ⟨var, path, c, cell, held, -, write⟩ := (follows.retains retains).access fits there same
  obtain ⟨changed, written, after⟩ := write lanes
  have step := Machine.step_store cell (retains.values _ _ value) held written
  refine ⟨_, _, ⟨emits, grown.append (bind_eq_ok.2 ⟨_, step, rfl⟩) ?_ ?_⟩, after⟩
  · simp [results]
  · simp [results]

theorem storeMerged_carries {k : Nat} {p : Place} {target : Target}
    (there : s.places[k]? = some p) (same : a.places[k]? = some target) {v : Value}
    {ys zs : List Binary32} (value : t.values.get? v.id = some (ofLanes ys)) {plan : Merge}
    (yields : plan.Yields (a.read target) ys zs) (length : zs.length = (a.read target).length) :
    (p.storeMerged v plan).Ensures m fun _ m' => ∃ is t', m.Carries body is m' t' ∧
      s.Follows (a.write zs target) t' := by
  have small : (a.read target).length ≤ 4 := Nat.le_of_eq (fits.length_read same)
  refine (load_carries reaches follows fits there same).bind inferInstance ?_
  rintro current m₁ ⟨is, t₁, loads, retains₁, read⟩
  refine (Merge.emit_carries loads.reaches read (retains₁.values _ _ value) yields length small).bind
    inferInstance ?_
  rintro merged m₂ ⟨js, t₂, merges, retains₂, result⟩
  have between := follows.retains (retains₁.trans retains₂)
  refine (store_carries merges.reaches between fits there same result).imp ?_
  rintro _ m₃ ⟨ks, t₃, stores, after⟩
  exact ⟨is ++ (js ++ ks), t₃, loads.trans (merges.trans stores), after⟩

theorem store_advances {k l : Nat} {p : Place} {target : Target} {v : Value} {ys : List Binary32}
    (there : s.places[k]? = some p) (same : a.places[k]? = some target)
    (isValue : s.values[l]? = some v) (lanes : a.values[l]? = some ys) {mask : LaneMask}
    (admits : mask.Admits 4 ys.length) {store : Build Unit} (stored : p.store v mask = .ok store) :
    (store >>= fun _ => pure (Reply.silent, s.emitter.toEmitter)).Ensures m
      (s.Advances m body (a.write (mask.mergeLanes (a.read target) ys) target)) := by
  obtain ⟨p', found, four, -⟩ := fits.place same
  obtain rfl : p = p' := Option.some.inj (there.symm.trans found)
  obtain ⟨v', found, count⟩ := fits.value lanes
  obtain rfl : v = v' := Option.some.inj (isValue.symm.trans found)
  have length := fits.length_read same
  have value := follows.value isValue lanes
  suffices carries : store.Ensures m fun _ m' => ∃ is t', m.Carries body is m' t' ∧
      s.Follows (a.write (mask.mergeLanes (a.read target) ys) target) t' from
    carries.bind inferInstance fun _ _ after => .pure after
  rcases Place.store_eq_ok stored with ⟨whole, all, rfl⟩ | ⟨plan, planned, rfl⟩
  · rw [four] at whole all
    rw [whole] at count
    have taken : mask.mergeLanes (a.read target) ys = ys := by
      rw [all]
      exact LaneMask.mergeLanes_firstLanes (w := .four) length count
    rw [taken]
    exact store_carries reaches follows fits there same value
  · have dstCount : (a.read target).length = p.type.value.width.count := by
      rw [length, four]
      rfl
    rw [← length] at admits
    obtain ⟨plan', planned', yields⟩ := Merge.plan_yields dstCount count admits
    obtain rfl : plan = plan' := Except.ok.inj (planned.symm.trans planned')
    exact storeMerged_carries reaches follows fits there same value yields
      (LaneMask.length_mergeLanes ..)

/-- What an allowed command does to the lanes, the directive that it asks for does to the machine. -/
theorem perform_advances {c : Command} {d : Directive} {act : Build (Reply × Emitter)}
    {a' : LaneMachine} (allowed : a.Allows c) (found : s.directive? c = some d)
    (obeyed : s.emitter.perform d = .ok act) (performed : a.perform c = .ok a') :
    act.Ensures m (s.Advances m body a') := by
  cases c with
  | scalarType kind =>
    cases found
    cases performed
    obtain rfl := Except.ok.inj obeyed
    exact declare_advances reaches follows ((kind.declare_quiet reaches.sound).imp fun _ _ => And.left)
  | valueType type =>
    cases found
    cases performed
    obtain rfl := Except.ok.inj obeyed
    exact declare_advances reaches follows ((type.declare_quiet reaches.sound).imp fun _ _ => And.left)
  | placeType type =>
    cases found
    cases performed
    obtain rfl := Except.ok.inj obeyed
    exact declare_advances reaches follows ((type.declare_quiet reaches.sound).imp fun _ _ => And.left)
  | vertexBlock =>
    cases found
    cases performed
    obtain rfl := Except.ok.inj obeyed
    exact declare_advances reaches follows
      ((VertexBlock.declare_quiet reaches.sound).imp fun _ _ => And.left)
  | float x =>
    cases found
    cases performed
    obtain rfl := Except.ok.inj obeyed
    exact float_advances reaches follows x
  | floats xs =>
    cases found
    cases performed
    obtain ⟨constant, made, same⟩ := bind_eq_ok.1 obeyed
    obtain rfl := Except.ok.inj same
    rcases Value.floats_eq_ok made with ⟨x, rfl, rfl⟩ | ⟨width, several, rfl⟩
    · exact float_advances reaches follows x
    · have least := allowed.1
      exact floatVector_advances reaches follows width (by omega)
  | reserve n =>
    cases found
    cases performed
    obtain rfl := Except.ok.inj obeyed
    exact reserve_advances reaches follows fits n
  | register index =>
    cases found
    obtain ⟨p, -, same⟩ := bind_eq_ok.1 obeyed
    obtain rfl := Except.ok.inj same
    simp only [LaneMachine.perform] at performed
    split at performed
    · cases performed
      refine .pure ⟨[], t, reaches.carries, follows.point ?_⟩
      intro isPosition
      cases isPosition
    · cases performed
  | position =>
    cases found
    cases performed
    obtain rfl := Except.ok.inj obeyed
    exact position_advances reaches follows
  | load k =>
    simp only [directive?, Option.bind_eq_bind, Option.bind_eq_some_iff] at found
    obtain ⟨p, there, same⟩ := found
    cases same
    obtain rfl := Except.ok.inj obeyed
    have target := List.getElem?_eq_getElem allowed
    simp only [LaneMachine.perform, target] at performed
    cases performed
    refine (load_carries reaches follows fits there target).bind inferInstance ?_
    rintro v m' ⟨is, t', carries, retains, value⟩
    exact .pure ⟨is, t', carries, (follows.retains retains).answer value⟩
  | merge dst src mask =>
    simp only [directive?, Option.bind_eq_bind, Option.bind_eq_some_iff] at found
    obtain ⟨v, isDst, w, isSrc, same⟩ := found
    cases same
    obtain ⟨merge, merged, same⟩ := bind_eq_ok.1 obeyed
    obtain rfl := Except.ok.inj same
    obtain ⟨xs, dstLanes, ys, srcLanes, admits⟩ := allowed
    rw [Option.mem_def] at dstLanes srcLanes
    simp only [LaneMachine.perform, dstLanes, srcLanes] at performed
    cases performed
    exact merge_advances reaches follows fits isDst isSrc dstLanes srcLanes admits merged
  | store k l mask =>
    simp only [directive?, Option.bind_eq_bind, Option.bind_eq_some_iff] at found
    obtain ⟨p, there, v, isValue, same⟩ := found
    cases same
    obtain ⟨store, stored, same⟩ := bind_eq_ok.1 obeyed
    obtain rfl := Except.ok.inj same
    obtain ⟨within, ys, lanes, admits⟩ := allowed
    have target := List.getElem?_eq_getElem within
    rw [Option.mem_def] at lanes
    simp only [LaneMachine.perform, target, lanes] at performed
    cases performed
    exact store_advances reaches follows fits there target isValue lanes admits stored

end Commands

theorem perform_follows {c : Command} {action : Build Session} {a' : LaneMachine}
    (fits : s.Fits a) (allowed : a.Allows c) (performed : a.perform c = .ok a')
    (done : s.perform c = .ok action) (reaches : m.Reaches body t) (follows : s.Follows a t) :
    action.Ensures m fun s' m' => ∃ is t', m.Carries body is m' t' ∧ s'.Follows a' t' := by
  obtain ⟨d, act, found, obeyed, rfl⟩ := perform_eq_ok done
  refine (perform_advances reaches follows fits allowed found obeyed performed).bind
    inferInstance ?_
  intro answer m' advances
  exact .pure advances

theorem performAll_follows {cs : List Command} {a' : LaneMachine} {s' : Session} {m' : Module}
    (fits : s.Fits a) (allowed : a.AllowsAll cs) (performed : a.performAll cs = .ok a')
    (done : performAll s m cs = .ok (s', m')) (fit : m'.IdsFit) (reaches : m.Reaches body t)
    (follows : s.Follows a t) : ∃ is t', m.Carries body is m' t' ∧ s'.Follows a' t' := by
  induction cs generalizing s a m body t with
  | nil =>
    cases performed
    cases done
    exact ⟨[], t, reaches.carries, follows⟩
  | cons c cs ih =>
    obtain ⟨a₁, first, rest⟩ := bind_eq_ok.1 performed
    obtain ⟨action, doneFirst, doneRest⟩ := bind_eq_ok.1 done
    have fitBetween : (action m).2.IdsFit := fit.of_le (issued_le_performAll doneRest)
    obtain ⟨is, t₁, carries, next⟩ :=
      perform_follows fits allowed.1 first doneFirst reaches follows fitBetween
    have fitsNext : (action m).1.Fits a₁ := by
      rcases refuses_or_accepts fits allowed.1 with
        ⟨index, declared, -, refused, -⟩ | ⟨a₂, other, performed, same, returns⟩
      · rw [first] at refused
        cases refused
      · obtain rfl := Except.ok.inj (first.symm.trans performed)
        obtain rfl := Except.ok.inj (doneFirst.symm.trans same)
        exact returns m
    obtain ⟨js, t₂, carriesRest, final⟩ :=
      ih fitsNext (allowed.2 a₁ first) rest doneRest carries.reaches next
    exact ⟨is ++ js, t₂, carries.trans carriesRest, final⟩

end Session

/-! From the start of an emitter to the run of what it has emitted. -/

theorem VertexEmitter.start_returns : start.Returns fun e => e.temps = {} := by
  rw [start_eq]
  have first : Emitter.start.Returns fun e => e.temps = {} :=
    .after fun _ => .after fun _ => .after fun _ => .pure rfl
  refine first.bind fun e none => .after fun output => .after fun types => .after fun _ => ?_
  exact .pure none

theorem Session.fits_start {e : VertexEmitter} (none : e.temps = {}) :
    Session.Fits ⟨e, [], []⟩ {} where
  values := .nil
  places := .nil
  temps := by
    rw [none]
    rfl
  registers := by simp [none]
  lanes := by simp
  position := rfl

theorem VertexEmitter.Opens.follows {m m' : Module} {e : VertexEmitter} {void type label : ResultId}
    (opens : Opens m e void type label m') :
    ∃ t, m'.Reaches [⟨.opLabel, some label, none, []⟩] t ∧ Session.Follows ⟨e, [], []⟩ {} t := by
  obtain ⟨start, boots⟩ := opens.sound.boots
  obtain ⟨pointer, block, declared, points, isBlock⟩ := opens.output
  obtain ⟨pointee, storage, c, typed, zero, held⟩ :=
    Machine.boot_variable opens.sound.coherent boots declared
  rw [points] at typed
  cases typed
  rw [isBlock.zero opens.sound] at zero
  cases zero
  have new := opens.new label (by simp)
  refine ⟨{ start with executed := start.executed + 1 },
    ⟨opens.sound, ⟨start, boots, rfl⟩, ?_, ?_⟩, ?_, ?_, ?_, .nil, .nil⟩
  · simp [results, new]
  · intro id member
    obtain rfl : id = label := by simpa [results] using member
    exact new.2.2
  · rw [opens.temps]
    exact .nil
  · simp [opens.temps]
  · exact ⟨_, held⟩

theorem Instruction.bodyOf?_of_not_mem {entry : ResultId} {before code : List Instruction}
    (new : entry ∉ results before) : bodyOf? entry (before ++ code) = bodyOf? entry code := by
  induction before with
  | nil => rfl
  | cons i before ih =>
    rw [results_cons, List.mem_append, not_or] at new
    rw [List.cons_append, bodyOf?, ih new.2, if_neg]
    rintro ⟨-, result⟩
    exact new.1 (by simp [result])

theorem Instruction.bodyOf?_head {entry void type label : ResultId} {before : List Instruction}
    (new : entry ∉ results before) (rest : List Instruction) :
    bodyOf? entry (before ++ (FunctionBlock.head entry void type label ++ rest)) =
      some (⟨.opLabel, some label, none, []⟩ :: rest) := by
  rw [bodyOf?_of_not_mem new, FunctionBlock.head, List.cons_append, bodyOf?, if_pos ⟨rfl, rfl⟩]
  rfl

theorem Instruction.endsCall_of_labelled {label : ResultId} {is : List Instruction}
    (straight : ∀ i ∈ is, i.isStraight) :
    ∀ i ∈ ⟨.opLabel, some label, none, []⟩ :: is, i.endsCall = false := by
  intro i member
  rcases List.mem_cons.1 member with rfl | later
  · rfl
  · have isStraight := straight i later
    simp only [Instruction.isStraight, decide_eq_true_eq] at isStraight
    rcases isStraight with h | h | h | h | h <;> simp [endsCall, h]

theorem Module.Reaches.run_eq {m : Module} {t : Machine} {before is : List Instruction}
    {entry void type label : ResultId} (new : entry ∉ results before)
    (code : m.code = before ++ (FunctionBlock.head entry void type label ++ is ++
      [⟨.opReturn, none, none, []⟩, ⟨.opFunctionEnd, none, none, []⟩]))
    (straight : ∀ i ∈ is, i.isStraight)
    (reaches : m.Reaches ([⟨.opLabel, some label, none, []⟩] ++ is) t) : m.run entry = .ok t := by
  obtain ⟨start, boots, run⟩ := reaches.run
  refine run_eq_ok.2 ⟨start, _, ⟨.opReturn, none, none, []⟩, [⟨.opFunctionEnd, none, none, []⟩],
    boots, ?_, ?_, rfl, run⟩
  · rw [code, List.append_assoc, Instruction.bodyOf?_head new]
    rfl
  · exact Instruction.endsCall_of_labelled straight

/-- What can be seen of a program once its function has run: the lanes of the registers, of the
position and of all values. -/
structure Session.Shows (s : Session) (a : LaneMachine) (t : Machine) : Prop where
  registers : List.Forall₂ (fun p lanes => (t.memory.get? p.id).bind Contents.floatLanes? = some lanes)
    s.emitter.temps.places a.temps
  position : ∃ members, t.memory.get? s.emitter.output = some (.composite members) ∧
    members.head?.bind Contents.floatLanes? = some a.position
  values : List.Forall₂ (fun v lanes => (t.values.get? v.id).bind Contents.floatLanes? = some lanes)
    s.values a.values

theorem Session.Follows.shows {s : Session} {a : LaneMachine} {t : Machine} (follows : s.Follows a t) :
    s.Shows a t where
  registers := follows.temps.imp fun p lanes held => by
    rw [held]
    exact Contents.floatLanes?_ofLanes lanes
  position := by
    obtain ⟨others, held⟩ := follows.output
    exact ⟨_, held, Contents.floatLanes?_ofLanes a.position⟩
  values := follows.values.imp fun v lanes known => by
    rw [known]
    exact Contents.floatLanes?_ofLanes lanes

theorem Lifetime.emit_vertex {m m₁ : Module} {e : VertexEmitter}
    (started : VertexEmitter.start m = (e, m₁)) (program : List Command) :
    Lifetime.emit ⟨.vertex, program⟩ m = Session.performAll ⟨e, [], []⟩ m₁ program >>= fun result =>
      .ok (result.1, (result.1.emitter.finish result.2).2) := by
  simp only [emit, VertexEmitter.forStage, started]
  rfl

theorem Lifetime.emit_runs {m m' : Module} {blocks : List FunctionBlock} {sessions : List Session}
    (closed : m.Closed blocks sessions) {program : List Command} {a : LaneMachine} {s : Session}
    (allowed : ({} : LaneMachine).AllowsAll program)
    (performed : ({} : LaneMachine).performAll program = .ok a)
    (done : Lifetime.emit ⟨.vertex, program⟩ m = .ok (s, m')) (fit : m'.IdsFit) :
    ∃ t, m'.run s.emitter.entry = .ok t ∧ s.Follows a t := by
  obtain ⟨e, void, type, label, m₁, -, m₂, -, opens, ran, -, entry, -, rfl⟩ :=
    emit_stages closed.tidy.sound done fit
  have fitEnd : m₂.IdsFit := fit
  obtain ⟨t₁, reaches, follows⟩ := opens.follows
  obtain ⟨is, t₂, carries, final⟩ := Session.performAll_follows (Session.fits_start opens.temps)
    allowed performed ran fitEnd reaches follows
  -- Finishing adds no declaration, so the machine is still the one that the body leads to.
  have finished := VertexEmitter.finish_continues carries.emits.sound.coherent s.emitter
  have sound := carries.emits.sound.of_same_globals finished rfl
  obtain ⟨t₃, reached, retains, -⟩ := carries.reaches.grow sound finished.extension
  have code : (s.emitter.finish m₂).2.code = m.code ++ (FunctionBlock.head e.entry void type label ++
      is ++ [⟨.opReturn, none, none, []⟩, ⟨.opFunctionEnd, none, none, []⟩]) := by
    rw [VertexEmitter.finish_code, carries.emits.code, opens.code]
    simp only [List.append_assoc]
  refine ⟨t₃, ?_, final.retains retains⟩
  rw [entry]
  exact reached.run_eq (opens.entry_new closed.tidy) code carries.emits.straight

/-- A program whose masks are admissible, emitted after any others, is refused only where its lanes
are: for a register that is not declared yet. Otherwise its function runs, and what can be seen
then are the lanes that its commands give. -/
theorem emitted_program_computes_lanes {earlier : List Lifetime} {past : List Session} {m : Module}
    {program : List Command} (emitted : emitAll earlier Module.empty = .ok (past, m))
    (allowed : ({} : LaneMachine).AllowsAll program) :
    (∃ index declared, declared ≤ index ∧
      ({} : LaneMachine).performAll program = .error (.misuse (.undeclaredRegister index declared)) ∧
      Lifetime.emit ⟨.vertex, program⟩ m = .error (.misuse (.undeclaredRegister index declared))) ∨
    ∃ lanes session m', ({} : LaneMachine).performAll program = .ok lanes ∧
      Lifetime.emit ⟨.vertex, program⟩ m = .ok (session, m') ∧
      (m'.IdsFit → ∃ final, m'.run session.emitter.entry = .ok final ∧ session.Shows lanes final) := by
  have none := VertexEmitter.start_returns m
  generalize started : VertexEmitter.start m = opened at none
  obtain ⟨e, m₁⟩ := opened
  have emits := Lifetime.emit_vertex started program
  rcases Session.performAll_agrees (Session.fits_start none) allowed m₁ with
    ⟨index, declared, few, refused, alsoRefused⟩ | ⟨lanes, session, m₂, performed, done⟩
  · left
    refine ⟨index, declared, few, refused, ?_⟩
    rw [emits, alsoRefused]
    rfl
  · right
    have finished : Lifetime.emit ⟨.vertex, program⟩ m =
        .ok (session, (session.emitter.finish m₂).2) := by
      rw [emits, done]
      rfl
    refine ⟨lanes, session, _, performed, finished, fun fit => ?_⟩
    have fitBefore : m.IdsFit := fit.of_le (issued_le_emit finished)
    obtain ⟨-, blocks, closed⟩ := emitAll_closed Module.closed_empty emitted fitBefore
    obtain ⟨final, run, follows⟩ := Lifetime.emit_runs closed allowed performed finished fit
    exact ⟨final, run, follows.shows⟩

def packAndPatch : List Command := [
  .reserve 2, .register 1, .floats [⟨1⟩, ⟨2⟩, ⟨3⟩], .store 0 0 ⟨true, true, false, true⟩, .load 0,
  .float ⟨9⟩, .merge 1 2 ⟨false, false, true, true⟩, .position, .store 1 3 (.firstLanes 4)]

theorem packed_and_patched_lanes : ∃ past m session m' final,
    emitAll twoPrograms Module.empty = .ok (past, m) ∧
    ({} : LaneMachine).AllowsAll packAndPatch ∧
    Lifetime.emit ⟨.vertex, packAndPatch⟩ m = .ok (session, m') ∧
    m'.run session.emitter.entry = .ok final ∧
    session.Shows {
      temps := [zeroLanes, [⟨1⟩, ⟨2⟩, ⟨0⟩, ⟨3⟩]]
      position := [⟨1⟩, ⟨2⟩, ⟨9⟩, ⟨3⟩]
      values := [[⟨1⟩, ⟨2⟩, ⟨3⟩], [⟨1⟩, ⟨2⟩, ⟨0⟩, ⟨3⟩], [⟨9⟩], [⟨1⟩, ⟨2⟩, ⟨9⟩, ⟨3⟩]]
      places := [.temp 1, .position] } final := by
  have check : (match emitAll twoPrograms Module.empty with
      | .ok (_, m) =>
        match Lifetime.emit ⟨.vertex, packAndPatch⟩ m with
        | .ok (_, m') => decide m'.IdsFit
        | .error _ => false
      | .error _ => false) = true := by decide +kernel
  have allowed : ({} : LaneMachine).AllowsAll packAndPatch := by decide +kernel
  cases emitted : emitAll twoPrograms Module.empty with
  | error refusal => simp [emitted] at check
  | ok result =>
    obtain ⟨past, m⟩ := result
    simp only [emitted] at check
    rcases emitted_program_computes_lanes emitted allowed with
      ⟨index, declared, -, refused, -⟩ | ⟨lanes, session, m', performed, done, runs⟩
    · cases refused
    · simp only [done, decide_eq_true_eq] at check
      obtain ⟨final, run, shows⟩ := runs check
      cases performed
      exact ⟨past, m, session, m', final, rfl, allowed, done, run, shows⟩

theorem undeclared_register_refused : ({} : LaneMachine).AllowsAll [.register 0] ∧
    Lifetime.emit ⟨.vertex, [.register 0]⟩ Module.empty =
      .error (.misuse (.undeclaredRegister 0 0)) := by
  have allowed : ({} : LaneMachine).AllowsAll [.register 0] := by decide
  refine ⟨allowed, ?_⟩
  have none := VertexEmitter.start_returns Module.empty
  generalize started : VertexEmitter.start Module.empty = opened at none
  obtain ⟨e, m⟩ := opened
  rw [Lifetime.emit_vertex started]
  rcases Session.performAll_agrees (Session.fits_start none) allowed m with
    ⟨index, declared, -, refused, alsoRefused⟩ | ⟨lanes, session, m', performed, -⟩
  · cases refused
    rw [alsoRefused]
    rfl
  · cases performed

end Shader
