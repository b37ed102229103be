import Shader.Proofs.Emission
import Shader.Proofs.LaneMachine

/-!
Which programs are emitted. The emitter knows of each value how many lanes it has and nothing else,
so it refuses a program with admissible masks only for using a register that is not there.
-/

namespace Shader

namespace Build
variable {α β : Type}

def Returns (x : Build α) (post : α → Prop) : Prop := ∀ m, post (x m).1

theorem Returns.pure {a : α} {post : α → Prop} (here : post a) :
    (Pure.pure a : Build α).Returns post := fun _ => here

theorem Returns.bind {x : Build α} {f : α → Build β} {mid : α → Prop} {post : β → Prop}
    (first : x.Returns mid) (second : ∀ a, mid a → (f a).Returns post) : (x >>= f).Returns post :=
  fun m => second _ (first m) _

theorem Returns.after {x : Build α} {f : α → Build β} {post : β → Prop}
    (second : ∀ a, (f a).Returns post) : (x >>= f).Returns post := fun _ => second _ _

end Build

theorem LogicalType.compute_returns (t : LogicalType) (opcode : Opcode) (operands : List Operand) :
    (t.compute opcode operands).Returns fun v => v.type = t := by
  refine .after fun type => .after fun id => ?_
  exact .pure rfl

theorem Merge.emit_returns (plan : Merge) (dst src : Value) :
    (plan.emit dst src).Returns fun v => v.type = dst.type := by
  cases plan with
  | keep => exact .pure rfl
  | replace => exact .pure rfl
  | insert lane => exact LogicalType.compute_returns _ _ _
  | shuffle selectors => exact LogicalType.compute_returns _ _ _

theorem Value.floats_returns {xs : List Binary32} (least : 1 ≤ xs.length) (most : xs.length ≤ 4) :
    ∃ action, floats xs = .ok action ∧
      action.Returns fun v => xs.length = v.type.width.count := by
  have vector : ∀ {width : Width}, xs.length = width.count →
      (floatVector width xs).Returns fun v => xs.length = v.type.width.count := by
    intro width count
    refine .after fun type => .after fun lanes => .after fun id => ?_
    exact .pure count
  match xs with
  | [] => simp at least
  | [x] => exact ⟨float x, rfl, .after fun id => .pure rfl⟩
  | [x, y] => exact ⟨floatVector .two [x, y], rfl, vector rfl⟩
  | [x, y, z] => exact ⟨floatVector .three [x, y, z], rfl, vector rfl⟩
  | [x, y, z, w] => exact ⟨floatVector .four [x, y, z, w], rfl, vector rfl⟩
  | _ :: _ :: _ :: _ :: _ :: _ =>
    simp only [List.length_cons] at most
    omega

namespace Registers

theorem declareMany_returns (type : ResultId) (indices : List Nat) :
    (indices.mapM (declareOne type)).Returns fun ps => ps.length = indices.length ∧
      ∀ p ∈ ps, p.type = placeType := by
  induction indices with
  | nil => exact .pure ⟨rfl, by simp⟩
  | cons index indices ih =>
    have one : (declareOne type index).Returns fun p => p.type = placeType :=
      .after fun id => .after fun _ => .pure rfl
    rw [List.mapM_cons]
    refine one.bind fun p isRegister => ih.bind ?_
    rintro ps ⟨length, types⟩
    refine .pure ⟨by simp [length], ?_⟩
    intro q member
    rcases List.mem_cons.1 member with rfl | later
    · exact isRegister
    · exact types q later

theorem reserve_returns (r : Registers) (n : Nat) :
    (r.reserve n).Returns fun r' => ∃ fresh, r'.places = r.places ++ fresh ∧
      fresh.length = n - r.size ∧ ∀ p ∈ fresh, p.type = placeType := by
  unfold reserve
  split
  · rename_i enough
    refine .pure ⟨[], (List.append_nil _).symm, ?_, by simp⟩
    simp only [List.length_nil]
    omega
  · refine .after fun type => (declareMany_returns type _).bind ?_
    rintro fresh ⟨length, types⟩
    refine .pure ⟨fresh, rfl, ?_, types⟩
    rw [length]
    simp [missing]

end Registers

/-- The session has answered values with as many lanes, and places for the same targets. -/
structure Session.Fits (s : Session) (a : LaneMachine) : Prop where
  values : List.Forall₂ (fun v lanes => lanes.length = v.type.width.count) s.values a.values
  places : List.Forall₂ (fun p target => p.type.value.width = .four ∧
    ∀ i, target = .temp i → s.emitter.temps.places[i]? = some p) s.places a.places
  temps : s.emitter.temps.places.length = a.temps.length
  registers : ∀ p ∈ s.emitter.temps.places, p.type = Registers.placeType
  lanes : ∀ lanes ∈ a.temps, lanes.length = 4
  position : a.position.length = 4

namespace Session.Fits
variable {s : Session} {a : LaneMachine} (fits : s.Fits a)
include fits

theorem value {k : Nat} {lanes : List Binary32} (there : a.values[k]? = some lanes) :
    ∃ v, s.values[k]? = some v ∧ lanes.length = v.type.width.count :=
  forall₂_getElem?_right fits.values there

theorem place {k : Nat} {target : Target} (there : a.places[k]? = some target) :
    ∃ p, s.places[k]? = some p ∧ p.type.value.width = .four ∧
      ∀ i, target = .temp i → s.emitter.temps.places[i]? = some p :=
  forall₂_getElem?_right fits.places there

theorem temp {k i : Nat} (there : a.places[k]? = some (.temp i)) : i < a.temps.length := by
  obtain ⟨p, -, -, register⟩ := fits.place there
  obtain ⟨within, -⟩ := List.getElem?_eq_some_iff.1 (register i rfl)
  rw [← fits.temps]
  exact within

theorem length_read {k : Nat} {target : Target} (there : a.places[k]? = some target) :
    (a.read target).length = 4 := by
  cases target with
  | position => exact fits.position
  | temp i =>
    have within := fits.temp there
    change (a.temps.getD i zeroLanes).length = 4
    rw [List.getD_eq_getElem?_getD, List.getElem?_eq_getElem within]
    exact fits.lanes _ (List.getElem_mem within)

theorem write {lanes : List Binary32} (four : lanes.length = 4) (target : Target) :
    s.Fits (a.write lanes target) := by
  cases target with
  | position => exact { fits with position := four }
  | temp i =>
    refine { fits with temps := ?_, lanes := ?_ }
    · rw [fits.temps]
      exact List.length_set.symm
    · intro other member
      rcases List.mem_or_eq_of_mem_set member with old | new
      · exact fits.lanes other old
      · exact new ▸ four

theorem answer {v : Value} {lanes : List Binary32} (length : lanes.length = v.type.width.count) :
    (s.answered (.value v) s.emitter.toEmitter).Fits (a.answer lanes) :=
  { fits with values := forall₂_concat fits.values length }

theorem point {p : Place} {target : Target} (four : p.type.value.width = .four)
    (register : ∀ i, target = .temp i → s.emitter.temps.places[i]? = some p) :
    (s.answered (.place p) s.emitter.toEmitter).Fits { a with places := a.places ++ [target] } :=
  { fits with places := forall₂_concat fits.places ⟨four, register⟩ }

theorem reserve {emitter : Emitter} {fresh : List Place} {n count : Nat}
    (grown : emitter.temps.places = s.emitter.temps.places ++ fresh)
    (length : fresh.length = n - s.emitter.temps.size)
    (types : ∀ p ∈ fresh, p.type = Registers.placeType) :
    (s.answered (.count count) emitter).Fits
      { a with temps := a.temps ++ List.replicate (n - a.temps.length) zeroLanes } where
  values := fits.values
  places := by
    refine fits.places.imp ?_
    rintro p target ⟨four, register⟩
    refine ⟨four, fun i isTemp => ?_⟩
    have there := register i isTemp
    obtain ⟨within, -⟩ := List.getElem?_eq_some_iff.1 there
    change emitter.temps.places[i]? = some p
    rw [grown, List.getElem?_append_left within, there]
  temps := by
    change emitter.temps.places.length = _
    rw [grown, List.length_append, List.length_append, List.length_replicate, length, fits.temps,
      Registers.size, fits.temps]
  registers := by
    intro p member
    change p ∈ emitter.temps.places at member
    rw [grown] at member
    rcases List.mem_append.1 member with old | new
    · exact fits.registers p old
    · exact types p new
  lanes := by
    intro lanes member
    rcases List.mem_append.1 member with old | new
    · exact fits.lanes lanes old
    · rw [(List.mem_replicate.1 new).2]
      rfl
  position := fits.position

end Session.Fits

namespace Session
variable {s : Session} {a : LaneMachine}

theorem perform_of_ok {c : Command} {d : Directive} {act : Build (Reply × Emitter)}
    (found : s.directive? c = some d) (done : s.emitter.perform d = .ok act) :
    s.perform c = .ok (act >>= fun answer => pure (s.answered answer.1 answer.2)) := by
  unfold perform
  rw [found]
  simp only [done]

/-- A register that is not there is refused in both ways of reading a program, and nothing else. -/
def Refuses (s : Session) (a : LaneMachine) (c : Command) : Prop :=
  ∃ index declared, declared ≤ index ∧
    a.perform c = .error (.misuse (.undeclaredRegister index declared)) ∧
    s.perform c = .error (.misuse (.undeclaredRegister index declared))

def Accepts (s : Session) (a : LaneMachine) (c : Command) : Prop :=
  ∃ a' action, a.perform c = .ok a' ∧ s.perform c = .ok action ∧ action.Returns fun s' => s'.Fits a'

theorem accepts {c : Command} {d : Directive} {act : Build (Reply × Emitter)} {a' : LaneMachine}
    (found : s.directive? c = some d) (done : s.emitter.perform d = .ok act)
    (performed : a.perform c = .ok a')
    (returns : act.Returns fun answer => (s.answered answer.1 answer.2).Fits a') : s.Accepts a c :=
  ⟨a', _, performed, perform_of_ok found done, returns.bind fun _ fits => .pure fits⟩

theorem accepts_register (fits : s.Fits a) (index : Nat) :
    s.Refuses a (.register index) ∨ s.Accepts a (.register index) := by
  by_cases within : index < a.temps.length
  · right
    have inPlaces : index < s.emitter.temps.places.length := by
      rw [fits.temps]
      exact within
    have there := List.getElem?_eq_getElem inPlaces
    have got : s.emitter.temps.get index = .ok s.emitter.temps.places[index] := by
      simp [Registers.get, Registers.get?, there]
    refine accepts rfl (bind_eq_ok.2 ⟨_, got, rfl⟩) (if_pos within) (.pure ?_)
    refine fits.point ?_ ?_
    · rw [fits.registers _ (List.getElem_mem inPlaces)]
      rfl
    · intro i same
      cases same
      exact there
  · left
    refine ⟨index, a.temps.length, Nat.le_of_not_lt within, if_neg within, ?_⟩
    have missing : s.emitter.temps.places[index]? = none := by
      rw [List.getElem?_eq_none_iff, fits.temps]
      exact Nat.le_of_not_lt within
    have refused : s.emitter.perform (.register index) =
        .error (.undeclaredRegister index a.temps.length) := by
      simp [Emitter.perform, Registers.get, Registers.get?, missing, Registers.size, fits.temps, bind,
        Except.bind]
    simp [perform, directive?, refused]

theorem accepts_merge (fits : s.Fits a) {dst src : Nat} {mask : LaneMask}
    (allowed : a.Allows (.merge dst src mask)) : s.Accepts a (.merge dst src mask) := by
  obtain ⟨xs, isDst, ys, isSrc, admits⟩ := allowed
  obtain ⟨v, dstThere, dstCount⟩ := fits.value isDst
  obtain ⟨w, srcThere, srcCount⟩ := fits.value isSrc
  obtain ⟨plan, planned, -⟩ := Merge.plan_yields dstCount srcCount admits
  have found : s.directive? (.merge dst src mask) = some (.merge v w mask) := by
    simp [directive?, dstThere, srcThere]
  have merged : v.merge w mask = .ok (plan.emit v w) := bind_eq_ok.2 ⟨plan, planned, rfl⟩
  have performed : a.perform (.merge dst src mask) = .ok (a.answer (mask.mergeLanes xs ys)) := by
    rw [Option.mem_def] at isDst isSrc
    simp [LaneMachine.perform, isDst, isSrc]
  refine accepts found (bind_eq_ok.2 ⟨_, merged, rfl⟩) performed ?_
  refine (Merge.emit_returns plan v w).bind fun u typed => .pure (fits.answer ?_)
  rw [LaneMask.length_mergeLanes, typed, dstCount]

theorem accepts_load (fits : s.Fits a) {place : Nat} (allowed : a.Allows (.load place)) :
    s.Accepts a (.load place) := by
  have there := List.getElem?_eq_getElem allowed
  obtain ⟨p, placeThere, four, -⟩ := fits.place there
  have found : s.directive? (.load place) = some (.load p) := by simp [directive?, placeThere]
  have performed : a.perform (.load place) = .ok (a.answer (a.read a.places[place])) := by
    simp [LaneMachine.perform, there]
  refine accepts found rfl performed ?_
  refine (LogicalType.compute_returns p.type.value .opLoad [.ref p.id]).bind
    fun v typed => .pure (fits.answer ?_)
  rw [fits.length_read there, typed, four]
  rfl

theorem accepts_store (fits : s.Fits a) {place value : Nat} {mask : LaneMask}
    (allowed : a.Allows (.store place value mask)) : s.Accepts a (.store place value mask) := by
  obtain ⟨within, ys, isValue, admits⟩ := allowed
  have there := List.getElem?_eq_getElem within
  obtain ⟨p, placeThere, four, -⟩ := fits.place there
  obtain ⟨v, valueThere, count⟩ := fits.value isValue
  have length := fits.length_read there
  have found : s.directive? (.store place value mask) = some (.store p v mask) := by
    simp [directive?, placeThere, valueThere]
  have performed : a.perform (.store place value mask) =
      .ok (a.write (mask.mergeLanes (a.read a.places[place]) ys) a.places[place]) := by
    rw [Option.mem_def] at isValue
    simp [LaneMachine.perform, there, isValue]
  obtain ⟨action, stored⟩ : ∃ action, p.store v mask = .ok action := by
    unfold Place.store
    by_cases whole : v.type.width = p.type.value.width ∧
        mask = .firstLanes p.type.value.width.count
    · exact ⟨_, if_pos whole⟩
    · rw [← length] at admits
      have lanes : (a.read a.places[place]).length = p.type.value.width.count := by
        rw [length, four]
        rfl
      obtain ⟨plan, planned, -⟩ := Merge.plan_yields lanes count admits
      refine ⟨p.storeMerged v plan, ?_⟩
      simp only [if_neg whole]
      exact bind_eq_ok.2 ⟨plan, planned, rfl⟩
  refine accepts found (bind_eq_ok.2 ⟨action, stored, rfl⟩) performed ?_
  refine .after fun _ => .pure (fits.write ?_ _)
  rw [LaneMask.length_mergeLanes, length]

theorem refuses_or_accepts (fits : s.Fits a) {c : Command} (allowed : a.Allows c) :
    s.Refuses a c ∨ s.Accepts a c := by
  cases c with
  | scalarType kind => exact .inr (accepts rfl rfl rfl (.after fun _ => .pure fits))
  | valueType type => exact .inr (accepts rfl rfl rfl (.after fun _ => .pure fits))
  | placeType type => exact .inr (accepts rfl rfl rfl (.after fun _ => .pure fits))
  | float x =>
    refine .inr (accepts rfl rfl rfl ?_)
    have float : (Value.float x).Returns fun v => v.type = .float := .after fun _ => .pure rfl
    refine float.bind fun v typed => .pure (fits.answer ?_)
    rw [typed]
    rfl
  | floats xs =>
    obtain ⟨action, made, returns⟩ := Value.floats_returns allowed.1 allowed.2
    refine .inr (accepts rfl (bind_eq_ok.2 ⟨action, made, rfl⟩) rfl ?_)
    exact returns.bind fun v count => .pure (fits.answer count)
  | reserve count =>
    refine .inr (accepts rfl rfl rfl ?_)
    refine (Registers.reserve_returns s.emitter.temps count).bind ?_
    rintro r ⟨fresh, grown, length, types⟩
    exact .pure (fits.reserve grown length types)
  | register index => exact accepts_register fits index
  | merge dst src mask => exact .inr (accepts_merge fits allowed)
  | load place => exact .inr (accepts_load fits allowed)
  | store place value mask => exact .inr (accepts_store fits allowed)
  | vertexBlock => exact .inr (accepts rfl rfl rfl (.after fun _ => .pure fits))
  | position =>
    refine .inr (accepts rfl rfl rfl ?_)
    have four : (VertexBlock.position s.emitter.output).Returns fun p => p.type.value.width = .four :=
      .after fun _ => .after fun _ => .after fun _ => .pure rfl
    exact four.bind fun p isFour => .pure (fits.point isFour nofun)

/-- Both ways of reading a program get to its end, or stop at the same undeclared register. -/
theorem performAll_agrees (fits : s.Fits a) {cs : List Command} (allowed : a.AllowsAll cs)
    (m : Module) :
    (∃ index declared, declared ≤ index ∧
      a.performAll cs = .error (.misuse (.undeclaredRegister index declared)) ∧
      performAll s m cs = .error (.misuse (.undeclaredRegister index declared))) ∨
    ∃ a' s' m', a.performAll cs = .ok a' ∧ performAll s m cs = .ok (s', m') := by
  induction cs generalizing s a m with
  | nil => exact .inr ⟨a, s, m, rfl, rfl⟩
  | cons c cs ih =>
    unfold LaneMachine.performAll performAll
    rcases refuses_or_accepts fits allowed.1 with
      ⟨index, declared, few, refused, alsoRefused⟩ | ⟨a', action, performed, done, returns⟩
    · left
      refine ⟨index, declared, few, ?_, ?_⟩
      · rw [refused]
        rfl
      · rw [alsoRefused]
        rfl
    · rw [performed, done]
      exact ih (returns m) (allowed.2 a' performed) (action m).2

end Session
end Shader
