import Shader.Proofs.WellFormedness

/-!
What emitted code refers to. An emitter that started when a number of ids had been given out refers,
in the instructions that it emits, to ids that were given out later and to constants, and to nothing
else: types and constants may be older than the emitter, variables and values are not.
-/

namespace Shader
open Build (Ensures Monotone)
open Instruction (results)
open Shader.Module (Emits)

namespace Module
variable {m m₁ m₂ : Module} {limit : Nat} {id : ResultId}

/-- The id was given out after the first so many, or it is that of a constant. -/
def Local (m : Module) (limit : Nat) (id : ResultId) : Prop :=
  (limit < id.index ∧ id.index ≤ m.issued) ∨ ∃ d, m.constDecl? id = some d

theorem Local.grows (isLocal : m.Local limit id) (sound : m.Sound) (grown : m.Extends m₁) :
    m₁.Local limit id := by
  rcases isLocal with ⟨later, given⟩ | ⟨d, known⟩
  · exact .inl ⟨later, Nat.le_trans given grown.issued⟩
  · exact .inr ⟨d, grown.constDecl sound.coherent known⟩

structure AddsLocal (limit : Nat) (m : Module) (is : List Instruction) (m' : Module) : Prop where
  sound : m'.Sound
  extension : m.Extends m'
  code : m'.code = m.code ++ is
  operands : ∀ i ∈ is, ∀ id ∈ i.operands.filterMap Operand.ref?, m'.Local limit id

theorem AddsLocal.trans {is js : List Instruction} (first : AddsLocal limit m is m₁)
    (second : AddsLocal limit m₁ js m₂) : AddsLocal limit m (is ++ js) m₂ where
  sound := second.sound
  extension := first.extension.trans second.extension
  code := by rw [second.code, first.code, List.append_assoc]
  operands i member id mentioned := by
    rcases List.mem_append.1 member with early | late
    · exact (first.operands i early id mentioned).grows first.sound second.extension
    · exact second.operands i late id mentioned

theorem Quiet.addsLocal (quiet : m.Quiet m₁) (limit : Nat) : AddsLocal limit m [] m₁ where
  sound := quiet.sound
  extension := quiet.extension
  code := by simp [quiet.code]
  operands := by simp

theorem Emits.addsLocal {defined : List ResultId} {i : Instruction} (emits : Emits defined m [i] m₁)
    (operands : ∀ id ∈ i.operands.filterMap Operand.ref?, m₁.Local limit id) :
    AddsLocal limit m [i] m₁ where
  sound := emits.sound
  extension := emits.extension
  code := emits.code
  operands j member := by
    obtain rfl := List.mem_singleton.1 member
    exact operands

theorem Emits.result_local {defined : List ResultId} {i : Instruction}
    (emits : Emits defined m [i] m₁) (result : i.result = some id) (old : limit ≤ m.issued) :
    m₁.Local limit id := by
  obtain ⟨new, given, -⟩ := emits.new id (by simp [results, result])
  exact .inl ⟨by omega, given⟩

end Module

open Shader.Module (AddsLocal)

section Emitting
variable {m : Module} {limit : Nat} (sound : m.Sound) (old : limit ≤ m.issued)
include sound old

theorem Place.load_local {p : Place} (place : m.Local limit p.id) :
    p.load.Ensures m fun v m' => ∃ is, AddsLocal limit m is m' ∧ m'.Local limit v.id := by
  have scope : p.id ∈ m.scope [p.id] := by simp [Module.scope]
  refine (load_emits sound scope).imp ?_
  rintro v m₁ ⟨-, type, emits⟩
  refine ⟨_, emits.addsLocal ?_, emits.result_local rfl old⟩
  simpa [Operand.ref?] using place.grows sound emits.extension

omit old in
theorem Build.store_local {pointer object : ResultId} (place : m.Local limit pointer)
    (value : m.Local limit object) :
    (Build.store pointer object).Ensures m fun _ m' => ∃ is, AddsLocal limit m is m' := by
  have scope : pointer ∈ m.scope [pointer, object] ∧ object ∈ m.scope [pointer, object] := by
    simp [Module.scope]
  refine (Build.store_emits sound scope.1 scope.2).imp ?_
  intro _ m₁ emits
  refine ⟨_, emits.addsLocal ?_⟩
  simpa [Operand.ref?] using
    ⟨place.grows sound emits.extension, value.grows sound emits.extension⟩

theorem Merge.emit_local {dst src : Value} (first : m.Local limit dst.id)
    (second : m.Local limit src.id) (plan : Merge) :
    (plan.emit dst src).Ensures m fun v m' => ∃ is, AddsLocal limit m is m' ∧
      m'.Local limit v.id := by
  have scope : dst.id ∈ m.scope [dst.id, src.id] ∧ src.id ∈ m.scope [dst.id, src.id] := by
    simp [Module.scope]
  have unchanged : AddsLocal limit m [] m := (Module.Quiet.refl sound).addsLocal limit
  cases plan with
  | keep => exact .pure ⟨[], unchanged, first⟩
  | replace => exact .pure ⟨[], unchanged, second⟩
  | insert lane =>
    refine (insert_emits sound scope.1 scope.2 lane).imp ?_
    rintro v m₁ ⟨-, type, emits⟩
    refine ⟨_, emits.addsLocal ?_, emits.result_local rfl old⟩
    simpa [Operand.ref?] using
      ⟨second.grows sound emits.extension, first.grows sound emits.extension⟩
  | shuffle selectors =>
    refine (shuffle_emits sound scope.1 scope.2 selectors).imp ?_
    rintro v m₁ ⟨-, type, emits⟩
    refine ⟨_, emits.addsLocal ?_, emits.result_local rfl old⟩
    simp only [List.filterMap_cons, Operand.ref?, Operand.refs_literals]
    simpa using ⟨first.grows sound emits.extension, second.grows sound emits.extension⟩

theorem Place.storeMerged_local {p : Place} {value : Value} (place : m.Local limit p.id)
    (stored : m.Local limit value.id) (plan : Merge) :
    (p.storeMerged value plan).Ensures m fun _ m' => ∃ is, AddsLocal limit m is m' := by
  refine (load_local sound old place).bind inferInstance ?_
  rintro current m₁ ⟨is, loads, isLocal⟩
  have old₁ := Nat.le_trans old loads.extension.issued
  refine (Merge.emit_local loads.sound old₁ isLocal (stored.grows sound loads.extension) plan).bind
    inferInstance ?_
  rintro merged m₂ ⟨js, merges, mergedLocal⟩
  have both := loads.trans merges
  refine (Build.store_local merges.sound (place.grows sound both.extension) mergedLocal).imp ?_
  rintro _ m₃ ⟨ks, stores⟩
  exact ⟨_, both.trans stores⟩

theorem VertexBlock.position_local {block : ResultId} (place : m.Local limit block) :
    (position block).Ensures m fun p m' => ∃ is, AddsLocal limit m is m' ∧ m'.Local limit p.id := by
  have scope : block ∈ m.scope [block] := by simp [Module.scope]
  refine (position_emits sound scope).imp ?_
  rintro p m₁ ⟨-, type, member, word, constant, emits⟩
  refine ⟨_, emits.addsLocal ?_, emits.result_local rfl old⟩
  have index : m₁.Local limit member := .inr ⟨_, constant⟩
  simpa [Operand.ref?] using ⟨place.grows sound emits.extension, index⟩

end Emitting

namespace Emitter
variable {e : Emitter} {m : Module} {limit : Nat}

structure Refers (limit : Nat) (m : Module) (answer : Reply × Emitter) (m' : Module) : Prop where
  adds : ∃ is, AddsLocal limit m is m'
  reply : ∀ id ∈ answer.1.refs, m'.Local limit id
  temps : ∀ p ∈ answer.2.temps.places, m'.Local limit p.id

section Replying
variable (sound : m.Sound) (temps : ∀ p ∈ e.temps.places, m.Local limit p.id)
include sound temps

theorem Refers.of_adds {m' : Module} {reply : Reply} {is : List Instruction}
    (adds : AddsLocal limit m is m') (known : ∀ id ∈ reply.refs, m'.Local limit id) :
    Refers limit m (reply, e) m' :=
  ⟨⟨is, adds⟩, known, fun p member => (temps p member).grows sound adds.extension⟩

theorem declare_refers {declare : Build ResultId}
    (quiet : declare.Ensures m fun _ m' => m.Quiet m') :
    (declare >>= fun id => pure (Reply.id id, e)).Ensures m (Refers limit m) := by
  refine quiet.bind inferInstance ?_
  intro id m₁ grown
  exact .pure (.of_adds sound temps (grown.addsLocal limit) (by simp [Reply.refs]))

theorem constant_refers {constant : Build Value}
    (quiet : constant.Ensures m fun v m' => m.Quiet m' ∧ ∃ d, m'.constDecl? v.id = some d) :
    (constant >>= fun v => pure (Reply.value v, e)).Ensures m (Refers limit m) := by
  refine quiet.bind inferInstance ?_
  rintro v m₁ ⟨grown, known⟩
  have isLocal : m₁.Local limit v.id := .inr known
  exact .pure (.of_adds sound temps (grown.addsLocal limit) (by simpa [Reply.refs] using isLocal))

theorem value_refers {action : Build Value}
    (adds : action.Ensures m fun v m' => ∃ is, AddsLocal limit m is m' ∧ m'.Local limit v.id) :
    (action >>= fun v => pure (Reply.value v, e)).Ensures m (Refers limit m) := by
  refine adds.bind inferInstance ?_
  rintro v m₁ ⟨is, emits, isLocal⟩
  exact .pure (.of_adds sound temps emits (by simpa [Reply.refs] using isLocal))

theorem silent_refers {action : Build Unit}
    (adds : action.Ensures m fun _ m' => ∃ is, AddsLocal limit m is m') :
    (action >>= fun _ => pure (Reply.silent, e)).Ensures m (Refers limit m) := by
  refine adds.bind inferInstance ?_
  rintro _ m₁ ⟨is, emits⟩
  exact .pure (.of_adds sound temps emits (by simp [Reply.refs]))

end Replying

theorem perform_refers (sound : m.Sound) (old : limit ≤ m.issued) {d : Directive}
    (known : ∀ id ∈ d.refs, m.Local limit id) (temps : ∀ p ∈ e.temps.places, m.Local limit p.id)
    {action : Build (Reply × Emitter)} (done : e.perform d = .ok action) :
    action.Ensures m (Refers limit m) := by
  cases performs_of_perform done with
  | scalarType kind =>
    exact declare_refers sound temps ((kind.declare_quiet sound).imp fun _ _ => And.left)
  | valueType type =>
    exact declare_refers sound temps ((type.declare_quiet sound).imp fun _ _ => And.left)
  | placeType type =>
    exact declare_refers sound temps ((type.declare_quiet sound).imp fun _ _ => And.left)
  | float x => exact constant_refers sound temps (Value.float_constant sound x)
  | oneFloat x => exact constant_refers sound temps (Value.float_constant sound x)
  | floats width xs =>
    exact constant_refers sound temps (Value.floatVector_constant sound width xs)
  | reserve count =>
    refine (Registers.reserve_quiet sound e.temps count).bind inferInstance ?_
    rintro r m' ⟨quiet, fresh, same, -, -, allNew⟩
    refine .pure ⟨⟨[], quiet.addsLocal limit⟩, by simp [Reply.refs], ?_⟩
    intro p member
    change p ∈ r.places at member
    rw [same] at member
    rcases List.mem_append.1 member with kept | new
    · exact (temps p kept).grows sound quiet.extension
    · have isNew := (allNew p new).new
      obtain ⟨pointer, declared, -⟩ := (allNew p new).declared
      exact .inl ⟨by omega, quiet.sound.coherent.given_of_var declared⟩
  | @register index place found =>
    refine .pure (.of_adds sound temps ((Module.Quiet.refl sound).addsLocal limit) ?_)
    simpa [Reply.refs] using temps place (Registers.mem_of_get found)
  | merge dst src mask plan =>
    simp only [Directive.refs, List.mem_cons, List.not_mem_nil, or_false, forall_eq_or_imp,
      forall_eq] at known
    exact value_refers sound temps (Merge.emit_local sound old known.1 known.2 plan)
  | load place =>
    exact value_refers sound temps (Place.load_local sound old (known _ (by simp [Directive.refs])))
  | store place value mask =>
    simp only [Directive.refs, List.mem_cons, List.not_mem_nil, or_false, forall_eq_or_imp,
      forall_eq] at known
    exact silent_refers sound temps (Build.store_local sound known.1 known.2)
  | storeMerged place value mask plan =>
    simp only [Directive.refs, List.mem_cons, List.not_mem_nil, or_false, forall_eq_or_imp,
      forall_eq] at known
    exact silent_refers sound temps (Place.storeMerged_local sound old known.1 known.2 plan)
  | vertexBlock =>
    exact declare_refers sound temps ((VertexBlock.declare_quiet sound).imp fun _ _ => And.left)
  | position block =>
    refine (VertexBlock.position_local sound old (known _ (by simp [Directive.refs]))).bind
      inferInstance ?_
    rintro p m₁ ⟨is, emits, isLocal⟩
    exact .pure (.of_adds sound temps emits (by simpa [Reply.refs] using isLocal))

end Emitter

namespace Session
variable {s s' : Session} {m m' : Module} {limit : Nat}

/-- A command adds code that refers to nothing but its program's own ids and constants. -/
theorem perform_local {c : Command} {action : Build Session} (done : s.perform c = .ok action)
    (sound : m.Sound) (old : limit ≤ m.issued) (known : ∀ id ∈ s.refs, m.Local limit id) :
    action.Ensures m fun s' m' => ∃ is, AddsLocal limit m is m' ∧
      ∀ id ∈ s'.refs, m'.Local limit id := by
  obtain ⟨d, act, found, obeyed, rfl⟩ := perform_eq_ok done
  have temps : ∀ p ∈ s.emitter.temps.places, m.Local limit p.id := by
    intro p member
    refine known p.id ?_
    simp only [refs, List.mem_cons, List.mem_append, List.mem_map]
    exact .inr (.inr ⟨p, member, rfl⟩)
  have passed : ∀ id ∈ d.refs, m.Local limit id :=
    fun id member => known id (refs_of_directive? found member)
  refine (Emitter.perform_refers sound old passed temps obeyed).bind inferInstance ?_
  rintro ⟨reply, emitter⟩ m₁ ⟨⟨is, adds⟩, replied, registers⟩
  refine .pure ⟨is, adds, ?_⟩
  intro id member
  rcases refs_answered member with kept | new | register
  · exact (known id kept).grows sound adds.extension
  · exact replied id new
  · obtain ⟨p, there, rfl⟩ := List.mem_map.1 register
    exact registers p there

theorem performAll_local {cs : List Command} (done : performAll s m cs = .ok (s', m'))
    (fit : m'.IdsFit) (sound : m.Sound) (old : limit ≤ m.issued)
    (known : ∀ id ∈ s.refs, m.Local limit id) : ∃ is, AddsLocal limit m is m' := by
  induction cs generalizing s m with
  | nil =>
    cases done
    exact ⟨[], (Module.Quiet.refl sound).addsLocal limit⟩
  | cons c cs ih =>
    obtain ⟨action, first, rest⟩ := bind_eq_ok.1 done
    have fitBetween : (action m).2.IdsFit := fit.of_le (issued_le_performAll rest)
    obtain ⟨is, adds, between⟩ := perform_local first sound old known fitBetween
    have old₁ := Nat.le_trans old adds.extension.issued
    obtain ⟨js, addsRest⟩ := ih rest adds.sound old₁ between
    exact ⟨is ++ js, adds.trans addsRest⟩

end Session

namespace VertexEmitter

theorem start_output_new (m : Module) :
    start.Ensures m fun e _ => m.issued < e.output.index := by
  have declared : ∀ m, declareOutput.Ensures m fun output _ => m.issued < output.index := by
    intro m
    refine (Build.issued_le_ensures _ m).bind inferInstance ?_
    intro block m₁ le₁
    refine (Build.issued_le_ensures _ m₁).bind inferInstance ?_
    intro pointer m₂ le₂
    have fresh : (Build.declareVariable ⟨pointer, .output⟩).Ensures m₂ fun output _ =>
        m.issued < output.index := by
      intro fit
      have before : m₂.IdsFit := fit.of_le (Nat.le_succ _)
      have index := Module.index_freshId before
      change m.issued < m₂.freshId.index
      omega
    refine fresh.bind inferInstance ?_
    intro output m₃ new
    exact (Build.issued_le_ensures _ m₃).bind inferInstance fun _ _ _ => .pure new
  rw [start_eq]
  refine (Build.issued_le_ensures _ m).bind inferInstance ?_
  intro emitter m₁ le₁
  refine (declared m₁).bind inferInstance ?_
  intro output m₂ new
  refine (Build.issued_le_ensures _ m₂).bind inferInstance ?_
  rintro ⟨void, type⟩ m₃ -
  refine (Build.issued_le_ensures _ m₃).bind inferInstance ?_
  intro label m₄ _
  exact .pure (Nat.lt_of_le_of_lt le₁ new)

theorem Opens.refs_local {m m' : Module} {e : VertexEmitter} {void type label : ResultId}
    (opens : Opens m e void type label m') (new : m.issued < e.output.index) :
    ∀ id ∈ Session.refs ⟨e, [], []⟩, m'.Local m.issued id := by
  obtain ⟨pointer, block, declared, -⟩ := opens.output
  intro id member
  obtain rfl : id = e.output := by simpa [Session.refs, opens.temps] using member
  exact .inl ⟨new, opens.sound.coherent.given_of_var declared⟩

end VertexEmitter
end Shader
