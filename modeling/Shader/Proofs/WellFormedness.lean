import Shader.Proofs.Emission
import Shader.Proofs.Session

/-!
Emitted modules are well formed. Every id is defined once and before it is used, and the code is one
function after another, each an entry point with its block of outputs as its interface.
-/

namespace Shader
open Build (Ensures Monotone)
open Instruction (results InScope)
open Shader.Module (Emits)

def Directive.refs : Directive → List ResultId
  | .merge dst src _ => [dst.id, src.id]
  | .load place => [place.id]
  | .store place value _ => [place.id, value.id]
  | .position block => [block]
  | _ => []

def Reply.refs : Reply → List ResultId
  | .value v => [v.id]
  | .place p => [p.id]
  | _ => []

namespace Emitter
variable {e : Emitter}

inductive Performs (e : Emitter) : Directive → Build (Reply × Emitter) → Prop where
  | scalarType (kind : ScalarKind) :
    Performs e (.scalarType kind) do return (.id (← kind.declare), e)
  | valueType (type : LogicalType) :
    Performs e (.valueType type) do return (.id (← type.declare), e)
  | placeType (type : PlaceType) :
    Performs e (.placeType type) do return (.id (← type.declare), e)
  | float (x : Binary32) : Performs e (.float x) do return (.value (← Value.float x), e)
  | oneFloat (x : Binary32) : Performs e (.floats [x]) do return (.value (← Value.float x), e)
  | floats (width : Width) (xs : List Binary32) :
    Performs e (.floats xs) do return (.value (← Value.floatVector width xs), e)
  | reserve (count : Nat) : Performs e (.reserve count) do
    let temps ← e.temps.reserve count
    return (.count temps.size, { e with temps := temps })
  | register {index : Nat} {place : Place} (found : e.temps.get index = .ok place) :
    Performs e (.register index) do return (.place place, e)
  | merge (dst src : Value) (mask : LaneMask) (plan : Merge) :
    Performs e (.merge dst src mask) do return (.value (← plan.emit dst src), e)
  | load (place : Place) : Performs e (.load place) do return (.value (← place.load), e)
  | store (place : Place) (value : Value) (mask : LaneMask) :
    Performs e (.store place value mask) do
      Build.store place.id value.id
      return (.silent, e)
  | storeMerged (place : Place) (value : Value) (mask : LaneMask) (plan : Merge) :
    Performs e (.store place value mask) do
      place.storeMerged value plan
      return (.silent, e)
  | vertexBlock : Performs e .vertexBlock do return (.id (← VertexBlock.declare), e)
  | position (block : ResultId) :
    Performs e (.position block) do return (.place (← VertexBlock.position block), e)

theorem performs_of_perform {d : Directive} {action : Build (Reply × Emitter)}
    (done : e.perform d = .ok action) : e.Performs d action := by
  unfold perform at done
  cases d with
  | floats xs =>
    obtain ⟨constant, found, same⟩ := bind_eq_ok.1 done
    obtain rfl := Except.ok.inj same
    rcases Value.floats_eq_ok found with ⟨x, rfl, rfl⟩ | ⟨width, -, rfl⟩
    · exact .oneFloat x
    · exact .floats width xs
  | register index =>
    obtain ⟨place, found, same⟩ := bind_eq_ok.1 done
    obtain rfl := Except.ok.inj same
    exact .register found
  | merge dst src mask =>
    obtain ⟨merged, found, same⟩ := bind_eq_ok.1 done
    obtain ⟨plan, -, planned⟩ := bind_eq_ok.1 found
    obtain rfl := Except.ok.inj planned
    obtain rfl := Except.ok.inj same
    exact .merge dst src mask plan
  | store place value mask =>
    obtain ⟨stored, found, same⟩ := bind_eq_ok.1 done
    obtain rfl := Except.ok.inj same
    rcases Place.store_eq_ok found with ⟨-, -, rfl⟩ | ⟨plan, -, rfl⟩
    · exact .store place value mask
    · exact .storeMerged place value mask plan
  | _ =>
    obtain rfl := Except.ok.inj done
    constructor

structure Obeys (e : Emitter) (defined : List ResultId) (m : Module) (answer : Reply × Emitter)
    (is : List Instruction) (m' : Module) : Prop where
  emits : Emits defined m is m'
  entry : answer.2.entry = e.entry
  reply : answer.1.refs ⊆ m'.scope (defined ++ results is)
  temps : ∀ p ∈ answer.2.temps.places, p ∈ e.temps.places ∨ p.id ∈ results m'.globals

theorem Obeys.of_quiet {defined : List ResultId} {m m' : Module} {reply : Reply}
    (quiet : m.Quiet m') (known : reply.refs ⊆ results m'.globals) :
    e.Obeys defined m (reply, e) [] m' :=
  ⟨quiet.emits defined, rfl, fun _ member => List.mem_append_left _ (known member),
    fun _ member => .inl member⟩

theorem Obeys.of_emits {defined : List ResultId} {m m' : Module} {reply : Reply}
    {is : List Instruction} (emits : Emits defined m is m')
    (known : reply.refs ⊆ m'.scope (defined ++ results is)) :
    e.Obeys defined m (reply, e) is m' :=
  ⟨emits, rfl, known, fun _ member => .inl member⟩

theorem declare_obeys {defined : List ResultId} {m : Module} {declare : Build ResultId}
    (quiet : declare.Ensures m fun _ m' => m.Quiet m') :
    (declare >>= fun id => pure (Reply.id id, e)).Ensures m fun answer m' =>
      ∃ is, e.Obeys defined m answer is m' := by
  refine quiet.bind inferInstance ?_
  intro id m' grown
  exact .pure ⟨[], .of_quiet grown (List.nil_subset _)⟩

theorem constant_obeys {defined : List ResultId} {m : Module} {constant : Build Value}
    (quiet : constant.Ensures m fun v m' => m.Quiet m' ∧ ∃ d, m'.constDecl? v.id = some d) :
    (constant >>= fun v => pure (Reply.value v, e)).Ensures m fun answer m' =>
      ∃ is, e.Obeys defined m answer is m' := by
  refine quiet.bind inferInstance ?_
  rintro v m' ⟨grown, d, known⟩
  have declared := grown.sound.coherent.mem_results_of_declares (.constant known)
  exact .pure ⟨[], .of_quiet grown (List.cons_subset.2 ⟨declared, List.nil_subset _⟩)⟩

theorem perform_monotone {d : Directive} {action : Build (Reply × Emitter)}
    (done : e.perform d = .ok action) : Monotone action := by
  cases performs_of_perform done <;> infer_instance

theorem perform_obeys {defined : List ResultId} {m : Module} (sound : m.Sound) {d : Directive}
    (known : d.refs ⊆ m.scope defined) (temps : ∀ p ∈ e.temps.places, p.id ∈ m.scope defined)
    {action : Build (Reply × Emitter)} (done : e.perform d = .ok action) :
    action.Ensures m fun answer m' => ∃ is, e.Obeys defined m answer is m' := by
  cases performs_of_perform done with
  | scalarType kind => exact declare_obeys ((kind.declare_quiet sound).imp fun _ _ => And.left)
  | valueType type => exact declare_obeys ((type.declare_quiet sound).imp fun _ _ => And.left)
  | placeType type => exact declare_obeys ((type.declare_quiet sound).imp fun _ _ => And.left)
  | float x => exact constant_obeys (Value.float_constant sound x)
  | oneFloat x => exact constant_obeys (Value.float_constant sound x)
  | floats width xs => exact constant_obeys (Value.floatVector_constant sound width xs)
  | reserve count =>
    refine (Registers.reserve_quiet sound e.temps count).bind inferInstance ?_
    rintro r m' ⟨quiet, fresh, same, -, -, allNew⟩
    refine .pure ⟨[], quiet.emits defined, rfl, List.nil_subset _, ?_⟩
    intro p member
    change p ∈ r.places at member
    rw [same] at member
    rcases List.mem_append.1 member with old | new
    · exact .inl old
    · obtain ⟨pointer, declared, -⟩ := (allNew p new).declared
      exact .inr (quiet.sound.coherent.mem_results_of_declares (.var declared))
  | @register index place found =>
    have member : place ∈ e.temps.places := Registers.mem_of_get found
    refine .pure ⟨[], .of_emits ((Module.Quiet.refl sound).emits defined) ?_⟩
    exact List.cons_subset.2 ⟨by simpa [results] using temps place member, List.nil_subset _⟩
  | merge dst src mask plan =>
    have dstKnown : dst.id ∈ m.scope defined := known List.mem_cons_self
    have srcKnown : src.id ∈ m.scope defined := known (List.mem_cons_of_mem _ List.mem_cons_self)
    refine (Merge.emit_emits sound dstKnown srcKnown plan).bind inferInstance ?_
    rintro v m' ⟨is, emits, resultKnown⟩
    exact .pure ⟨is, .of_emits emits (List.cons_subset.2 ⟨resultKnown, List.nil_subset _⟩)⟩
  | load place =>
    refine (Place.load_emits sound (known List.mem_cons_self)).bind inferInstance ?_
    rintro v m' ⟨-, type, emits⟩
    refine .pure ⟨_, .of_emits emits (List.cons_subset.2 ⟨?_, List.nil_subset _⟩)⟩
    simp [Module.scope, results]
  | store place value mask =>
    have placeKnown : place.id ∈ m.scope defined := known List.mem_cons_self
    have valueKnown : value.id ∈ m.scope defined := known (List.mem_cons_of_mem _ List.mem_cons_self)
    refine (Build.store_emits sound placeKnown valueKnown).bind inferInstance ?_
    intro _ m' emits
    exact .pure ⟨_, .of_emits emits (List.nil_subset _)⟩
  | storeMerged place value mask plan =>
    have placeKnown : place.id ∈ m.scope defined := known List.mem_cons_self
    have valueKnown : value.id ∈ m.scope defined := known (List.mem_cons_of_mem _ List.mem_cons_self)
    refine (Place.storeMerged_emits sound placeKnown valueKnown plan).bind inferInstance ?_
    rintro _ m' ⟨is, emits⟩
    exact .pure ⟨is, .of_emits emits (List.nil_subset _)⟩
  | vertexBlock => exact declare_obeys ((VertexBlock.declare_quiet sound).imp fun _ _ => And.left)
  | position block =>
    refine (VertexBlock.position_emits sound (known List.mem_cons_self)).bind inferInstance ?_
    rintro p m' ⟨-, type, member, word, -, emits⟩
    refine .pure ⟨_, .of_emits emits (List.cons_subset.2 ⟨?_, List.nil_subset _⟩)⟩
    simp [Module.scope, results]

end Emitter

namespace Session

def refs (s : Session) : List ResultId :=
  s.emitter.output :: (s.values.map Value.id ++ s.places.map Place.id ++
    s.emitter.temps.places.map Place.id)

theorem refs_of_directive? {s : Session} {c : Command} {d : Directive}
    (found : s.directive? c = some d) : d.refs ⊆ s.refs := by
  have value : ∀ {k : Nat} {v : Value}, s.values[k]? = some v → v.id ∈ s.refs := by
    intro k v there
    have member := List.mem_of_getElem? there
    simp only [refs, List.mem_cons, List.mem_append, List.mem_map]
    exact .inr (.inl (.inl ⟨v, member, rfl⟩))
  have place : ∀ {k : Nat} {p : Place}, s.places[k]? = some p → p.id ∈ s.refs := by
    intro k p there
    have member := List.mem_of_getElem? there
    simp only [refs, List.mem_cons, List.mem_append, List.mem_map]
    exact .inr (.inl (.inr ⟨p, member, rfl⟩))
  unfold directive? at found
  cases c with
  | merge dst src mask =>
    simp only [Option.bind_eq_bind, Option.bind_eq_some_iff] at found
    obtain ⟨v, one, w, two, same⟩ := found
    cases same
    exact List.cons_subset.2 ⟨value one, List.cons_subset.2 ⟨value two, List.nil_subset _⟩⟩
  | load k =>
    simp only [Option.bind_eq_bind, Option.bind_eq_some_iff] at found
    obtain ⟨p, there, same⟩ := found
    cases same
    exact List.cons_subset.2 ⟨place there, List.nil_subset _⟩
  | store k l mask =>
    simp only [Option.bind_eq_bind, Option.bind_eq_some_iff] at found
    obtain ⟨p, one, v, two, same⟩ := found
    cases same
    exact List.cons_subset.2 ⟨place one, List.cons_subset.2 ⟨value two, List.nil_subset _⟩⟩
  | position =>
    cases found
    exact List.cons_subset.2 ⟨List.mem_cons_self, List.nil_subset _⟩
  | _ =>
    cases found
    exact List.nil_subset _

theorem refs_answered {s : Session} {reply : Reply} {emitter : Emitter} {id : ResultId}
    (member : id ∈ (s.answered reply emitter).refs) :
    id ∈ s.refs ∨ id ∈ reply.refs ∨ id ∈ emitter.temps.places.map Place.id := by
  unfold refs at member ⊢
  cases reply <;> simp [answered, Reply.refs] at member ⊢ <;> grind

theorem perform_eq_ok {s : Session} {c : Command} {action : Build Session}
    (done : s.perform c = .ok action) : ∃ d act, s.directive? c = some d ∧
      s.emitter.perform d = .ok act ∧
      action = (do let (reply, emitter) ← act; return s.answered reply emitter) := by
  unfold perform at done
  cases found : s.directive? c with
  | none =>
    rw [found] at done
    cases done
  | some d =>
    rw [found] at done
    cases obeyed : s.emitter.perform d with
    | error misuse =>
      simp only [obeyed] at done
      cases done
    | ok act =>
      simp only [obeyed] at done
      exact ⟨d, act, rfl, obeyed, (Except.ok.inj done).symm⟩

theorem perform_monotone {s : Session} {c : Command} {action : Build Session}
    (done : s.perform c = .ok action) : Monotone action := by
  obtain ⟨d, act, -, obeyed, rfl⟩ := perform_eq_ok done
  have := Emitter.perform_monotone obeyed
  infer_instance

theorem perform_emits {s : Session} {c : Command} {action : Build Session} {defined : List ResultId}
    {m : Module} (done : s.perform c = .ok action) (sound : m.Sound)
    (known : s.refs ⊆ m.scope defined) :
    action.Ensures m fun s' m' => ∃ is, Emits defined m is m' ∧
      s'.refs ⊆ m'.scope (defined ++ results is) ∧ s'.emitter.entry = s.emitter.entry ∧
      s'.emitter.output = s.emitter.output := by
  obtain ⟨d, act, found, obeyed, rfl⟩ := perform_eq_ok done
  have temps : ∀ p ∈ s.emitter.temps.places, p.id ∈ m.scope defined := by
    intro p member
    refine known ?_
    simp only [refs, List.mem_cons, List.mem_append, List.mem_map]
    exact .inr (.inr ⟨p, member, rfl⟩)
  have directive : d.refs ⊆ m.scope defined := fun id member => known (refs_of_directive? found member)
  refine (Emitter.perform_obeys sound directive temps obeyed).bind inferInstance ?_
  rintro ⟨reply, emitter⟩ m' ⟨is, obeys⟩
  refine .pure ⟨is, obeys.emits, ?_, obeys.entry, rfl⟩
  intro id member
  rcases refs_answered member with old | new | register
  · exact obeys.emits.scope_subset (known old)
  · exact obeys.reply new
  · obtain ⟨p, there, rfl⟩ := List.mem_map.1 register
    rcases obeys.temps p there with old | declared
    · exact obeys.emits.scope_subset (temps p old)
    · exact List.mem_append_left _ declared

theorem issued_le_performAll {s s' : Session} {m m' : Module} {cs : List Command}
    (done : performAll s m cs = .ok (s', m')) : m.issued ≤ m'.issued := by
  induction cs generalizing s m with
  | nil =>
    cases done
    exact Nat.le_refl _
  | cons c cs ih =>
    obtain ⟨action, first, rest⟩ := bind_eq_ok.1 done
    exact Nat.le_trans ((perform_monotone first).issued_le m) (ih rest)

theorem performAll_emits {s s' : Session} {m m' : Module} {cs : List Command}
    {defined : List ResultId} (done : performAll s m cs = .ok (s', m')) (fit : m'.IdsFit)
    (sound : m.Sound) (known : s.refs ⊆ m.scope defined) :
    ∃ is, Emits defined m is m' ∧ s'.refs ⊆ m'.scope (defined ++ results is) ∧
      s'.emitter.entry = s.emitter.entry ∧ s'.emitter.output = s.emitter.output := by
  induction cs generalizing s m defined with
  | nil =>
    cases done
    exact ⟨[], (Module.Quiet.refl sound).emits defined, by simpa [results] using known, rfl, rfl⟩
  | cons c cs ih =>
    obtain ⟨action, first, rest⟩ := bind_eq_ok.1 done
    have fitBetween : (action m).2.IdsFit := fit.of_le (issued_le_performAll rest)
    obtain ⟨is, emits, between, entry, output⟩ := perform_emits first sound known fitBetween
    obtain ⟨js, emitsRest, final, entryRest, outputRest⟩ := ih rest emits.sound between
    refine ⟨is ++ js, emits.trans emitsRest, ?_, entryRest.trans entry, outputRest.trans output⟩
    rw [Instruction.results_append, ← List.append_assoc]
    exact final

end Session

namespace Module
variable {m m' : Module}

/-- Results in the code are apart from each other and from what is declared. -/
structure Tidy (m : Module) : Prop where
  sound : m.Sound
  distinct : (results m.code).Nodup
  apart : ∀ id ∈ results m.code, id ∉ results m.globals
  given : ∀ id ∈ results m.code, id.index ≤ m.issued

theorem tidy_empty : empty.Tidy := ⟨sound_empty, List.nodup_nil, by simp [empty, results],
  by simp [empty, results]⟩

theorem Tidy.append (tidy : m.Tidy) (sound : m'.Sound) (grown : m.Extends m') {is : List Instruction}
    (code : m'.code = m.code ++ is) (distinct : (results is).Nodup)
    (new : ∀ id ∈ results is,
      m.issued < id.index ∧ id.index ≤ m'.issued ∧ id ∉ results m'.globals) : m'.Tidy := by
  refine ⟨sound, ?_, ?_, ?_⟩
  · rw [code, Instruction.results_append, List.nodup_append]
    refine ⟨tidy.distinct, distinct, ?_⟩
    rintro id old other recent rfl
    have below := tidy.given id old
    have above := (new id recent).1
    omega
  · intro id member
    rw [code, Instruction.results_append] at member
    rcases List.mem_append.1 member with old | recent
    · exact grown.not_mem_results (tidy.given id old) (tidy.apart id old)
    · exact (new id recent).2.2
  · intro id member
    rw [code, Instruction.results_append] at member
    rcases List.mem_append.1 member with old | recent
    · exact Nat.le_trans (tidy.given id old) grown.issued
    · exact (new id recent).2.1

theorem Tidy.emits {defined : List ResultId} {is : List Instruction} (tidy : m.Tidy)
    (emits : Emits defined m is m') : m'.Tidy :=
  tidy.append emits.sound emits.extension emits.code emits.distinct emits.new

theorem Tidy.nodup (tidy : m.Tidy) : (results (m.globals ++ m.code)).Nodup := by
  rw [Instruction.results_append, List.nodup_append]
  refine ⟨?_, tidy.distinct, ?_⟩
  · refine tidy.sound.coherent.increasing.imp ?_
    rintro a b below rfl
    have := ResultId.lt_iff.1 below
    omega
  · rintro id declared other computed rfl
    exact tidy.apart id computed declared

end Module

structure FunctionBlock where
  entry : ResultId
  void : ResultId
  type : ResultId
  label : ResultId
  body : List Instruction
  straight : ∀ i ∈ body, i.isStraight

namespace FunctionBlock

def head (entry void type label : ResultId) : List Instruction := [
  ⟨.opFunction, some entry, some void, [.noControl, .ref type]⟩, ⟨.opLabel, some label, none, []⟩]

def instructions (b : FunctionBlock) : List Instruction :=
  head b.entry b.void b.type b.label ++ b.body ++
    [⟨.opReturn, none, none, []⟩, ⟨.opFunctionEnd, none, none, []⟩]

end FunctionBlock

instance : Monotone Emitter.start := by
  unfold Emitter.start
  infer_instance

theorem Emitter.start_quiet {m : Module} (sound : m.Sound) :
    Emitter.start.Ensures m fun e m' => m.Quiet m' ∧ e.temps = {} ∧
      m.issued < e.entry.index ∧ e.entry.index ≤ m'.issued ∧ e.entry ∉ results m'.globals := by
  refine (Build.enableCapability_quiet sound .shader).bind inferInstance ?_
  intro _ m₁ first
  refine (Build.setMemoryModel_quiet first.sound .logical .glsl450).bind inferInstance ?_
  intro _ m₂ second
  refine (Build.freshId_quiet second.sound).bind inferInstance ?_
  rintro entry m₃ ⟨third, rfl, rfl⟩
  have before := (first.trans second).extension.issued
  have index := Module.index_freshId second.sound.coherent.fit
  refine .pure ⟨(first.trans second).trans third, rfl, ?_, ?_, ?_⟩
  · change m.issued < m₂.freshId.index
    omega
  · change m₂.freshId.index ≤ m₂.issued + 1
    omega
  · intro declared
    have given := second.sound.coherent.given m₂.freshId declared
    omega

namespace VertexEmitter

/-! The start of an emitter, in parts. -/

def declareOutput : Build ResultId := do
  let block ← VertexBlock.declare
  let pointer ← Build.declareType (.pointer block .output)
  let output ← Build.declareVariable ⟨pointer, .output⟩
  Build.name output "vs_per_vertex"
  return output

def declareFunctionType : Build (ResultId × ResultId) := do
  let void ← Build.declareType .void
  let function ← Build.declareType (.function void [])
  return (void, function)

def openFunction (void entry type : ResultId) : Build ResultId := do
  Build.beginFunction void entry type
  let label ← Build.freshId
  Build.label label
  return label

theorem start_eq : start = do
    let emitter ← Emitter.start
    let output ← declareOutput
    let (void, type) ← declareFunctionType
    let _ ← openFunction void emitter.entry type
    return ⟨emitter, output⟩ := by
  simp only [start, declareOutput, declareFunctionType, openFunction, bind_assoc, pure_bind]

instance : Monotone declareOutput := by
  unfold declareOutput
  infer_instance

instance : Monotone declareFunctionType := by
  unfold declareFunctionType
  infer_instance

instance (void entry type : ResultId) : Monotone (openFunction void entry type) := by
  unfold openFunction
  infer_instance

instance : Monotone start := by
  rw [start_eq]
  infer_instance

def IsOutput (m : Module) (output : ResultId) : Prop :=
  ∃ pointer block, m.varDecl? output = some ⟨pointer, .output⟩ ∧
    m.typeDecl? pointer = some (.pointer block .output) ∧ VertexBlock.IsBlock m block

theorem IsOutput.grows {m m' : Module} {output : ResultId} (isOutput : IsOutput m output)
    (sound : m.Sound) (grown : m.Extends m') : IsOutput m' output := by
  obtain ⟨pointer, block, known, points, isBlock⟩ := isOutput
  exact ⟨pointer, block, grown.varDecl sound.coherent known, grown.typeDecl sound.coherent points,
    isBlock.grows sound grown⟩

theorem declareOutput_quiet {m : Module} (sound : m.Sound) :
    declareOutput.Ensures m fun output m' => m.Quiet m' ∧ IsOutput m' output := by
  refine (VertexBlock.declare_quiet sound).bind inferInstance ?_
  rintro block m₁ ⟨first, isBlock⟩
  have blockKnown : block ∈ results m₁.globals := by
    obtain ⟨members, known, -⟩ := isBlock
    exact first.sound.coherent.mem_results_of_declares (.type known)
  have inScope : (TypeDecl.pointer block .output).operands.filterMap Operand.ref? ⊆
      results m₁.globals := List.cons_subset.2 ⟨blockKnown, List.nil_subset _⟩
  refine (Build.declareType_quiet first.sound inScope).bind inferInstance ?_
  rintro pointer m₂ ⟨second, points⟩
  have zero := (isBlock.grows first.sound second.extension).zero second.sound
  refine (Build.declareVariable_quiet second.sound (d := ⟨pointer, .output⟩) points zero).bind
    inferInstance ?_
  rintro output m₃ ⟨third, declared, -⟩
  refine (Build.attachName_quiet third.sound _).bind inferInstance ?_
  intro _ m₄ fourth
  refine .pure ⟨(first.trans second).trans (third.trans fourth), pointer, block, ?_, ?_, ?_⟩
  · exact fourth.extension.varDecl third.sound.coherent declared
  · exact (third.trans fourth).extension.typeDecl second.sound.coherent points
  · exact isBlock.grows first.sound (second.trans (third.trans fourth)).extension

theorem declareFunctionType_quiet {m : Module} (sound : m.Sound) :
    declareFunctionType.Ensures m fun types m' => m.Quiet m' ∧ types.1 ∈ results m'.globals ∧
      types.2 ∈ results m'.globals := by
  refine (Build.declareType_quiet sound (d := .void) (List.nil_subset _)).bind inferInstance ?_
  rintro void m₁ ⟨first, isVoid⟩
  have voidKnown := first.sound.coherent.mem_results_of_declares (.type isVoid)
  have inScope : (TypeDecl.function void []).operands.filterMap Operand.ref? ⊆
      results m₁.globals := List.cons_subset.2 ⟨voidKnown, List.nil_subset _⟩
  refine (Build.declareType_quiet first.sound inScope).bind inferInstance ?_
  rintro type m₂ ⟨second, isFunction⟩
  exact .pure ⟨first.trans second, second.extension.results_subset voidKnown,
    second.sound.coherent.mem_results_of_declares (.type isFunction)⟩

theorem openFunction_ensures {m : Module} (sound : m.Sound) (void entry type : ResultId) :
    (openFunction void entry type).Ensures m fun label m' => m'.Sound ∧ m.Extends m' ∧
      m'.code = m.code ++ FunctionBlock.head entry void type label ∧ m'.globals = m.globals ∧
      m'.entryPoints = m.entryPoints ∧ m.issued < label.index ∧ label.index ≤ m'.issued := by
  intro fit
  have head := Module.continues_addCode sound.coherent
    (i := ⟨.opFunction, some entry, some void, [.noControl, .ref type]⟩) rfl
  have fresh := Module.continues_advance head.coherent fit
  have labelled := Module.continues_addCode fresh.coherent
    (i := ⟨.opLabel, some m.freshId, none, []⟩) rfl
  have continues := (head.trans fresh).trans labelled
  have index := Module.index_freshId sound.coherent.fit
  refine ⟨sound.of_same_globals continues rfl, continues.extension, ?_, rfl, rfl, ?_, ?_⟩
  · exact List.append_assoc m.code _ _
  · change m.issued < m.freshId.index
    omega
  · change m.freshId.index ≤ m.issued + 1
    omega

/-- A fresh emitter has opened its function and declared its block of outputs. -/
structure Opens (m : Module) (e : VertexEmitter) (void type label : ResultId) (m' : Module) :
    Prop where
  sound : m'.Sound
  extension : m.Extends m'
  code : m'.code = m.code ++ FunctionBlock.head e.entry void type label
  entryPoints : m'.entryPoints = m.entryPoints
  inScope : InScope (results m'.globals) (FunctionBlock.head e.entry void type label)
  distinct : e.entry ≠ label
  new : ∀ id ∈ [e.entry, label],
    m.issued < id.index ∧ id.index ≤ m'.issued ∧ id ∉ results m'.globals
  temps : e.temps = {}
  output : IsOutput m' e.output

theorem start_opens {m : Module} (sound : m.Sound) :
    start.Ensures m fun e m' => ∃ void type label, Opens m e void type label m' := by
  rw [start_eq]
  refine (Emitter.start_quiet sound).bind inferInstance ?_
  rintro emitter m₁ ⟨first, temps, entryNew, entryGiven, entryApart⟩
  refine (declareOutput_quiet first.sound).bind inferInstance ?_
  rintro output m₂ ⟨second, isOutput⟩
  refine (declareFunctionType_quiet second.sound).bind inferInstance ?_
  rintro ⟨void, type⟩ m₃ ⟨third, voidKnown, typeKnown⟩
  refine (openFunction_ensures third.sound void emitter.entry type).bind inferInstance ?_
  rintro label m₄ ⟨soundNow, grown, code, globals, entryPoints, labelNew, labelGiven⟩
  have quiet : m.Quiet m₃ := first.trans (second.trans third)
  have before := quiet.extension.issued
  have between := (second.trans third).extension.issued
  have after := grown.issued
  have entryStillApart : emitter.entry ∉ results m₄.globals := by
    rw [globals]
    exact (second.trans third).extension.not_mem_results entryGiven entryApart
  have labelApart : label ∉ results m₄.globals := by
    rw [globals]
    intro declared
    have := third.sound.coherent.given label declared
    omega
  refine .pure ⟨void, type, label, soundNow, quiet.extension.trans grown, ?_, ?_, ?_, ?_, ?_, temps,
    isOutput.grows second.sound (third.extension.trans grown)⟩
  · rw [code, quiet.code]
  · rw [entryPoints, quiet.entryPoints]
  · rw [globals]
    refine ⟨?_, List.nil_subset _, trivial⟩
    exact List.cons_subset.2 ⟨voidKnown, List.cons_subset.2 ⟨typeKnown, List.nil_subset _⟩⟩
  · intro same
    have : emitter.entry = label := same
    rw [← this] at labelNew
    omega
  · intro id member
    rcases List.mem_cons.1 member with same | last
    · rw [show id = emitter.entry from same]
      exact ⟨entryNew, by omega, entryStillApart⟩
    · obtain rfl := List.mem_singleton.1 last
      exact ⟨by omega, labelGiven, labelApart⟩

theorem Opens.tidy {m m' : Module} {e : VertexEmitter} {void type label : ResultId}
    (opens : Opens m e void type label m') (tidy : m.Tidy) : m'.Tidy := by
  refine tidy.append opens.sound opens.extension opens.code ?_ opens.new
  change [e.entry, label].Nodup
  simp [opens.distinct]

theorem Opens.entry_new {m m' : Module} {e : VertexEmitter} {void type label : ResultId}
    (opens : Opens m e void type label m') (tidy : m.Tidy) : e.entry ∉ results m.code := by
  intro old
  have below := tidy.given e.entry old
  have above := (opens.new e.entry List.mem_cons_self).1
  omega

theorem Opens.refs_subset {m m' : Module} {e : VertexEmitter} {void type label : ResultId}
    (opens : Opens m e void type label m') :
    Session.refs ⟨e, [], []⟩ ⊆ m'.scope [e.entry, label] := by
  obtain ⟨pointer, block, declared, -⟩ := opens.output
  have output := opens.sound.coherent.mem_results_of_declares (.var declared)
  simp only [Session.refs, opens.temps, List.map_nil, List.append_nil]
  exact List.cons_subset.2 ⟨List.mem_append_left _ output, List.nil_subset _⟩

def entryPoint (e : VertexEmitter) : EntryPoint := ⟨e.entry, .vertex, "main", [e.output]⟩

theorem finish_continues {m : Module} (co : m.Coherent) (e : VertexEmitter) :
    m.Continues (e.finish m).2 := by
  refine Module.continues_sections co List.prefix_rfl (List.prefix_append _ _)
    (List.prefix_append _ _) List.prefix_rfl
    ((List.prefix_append _ _).trans (List.prefix_append _ _)) ?_
  intro i member
  rcases List.mem_append.1 member with earlier | last
  · rcases List.mem_append.1 earlier with old | first
    · exact .inl old
    · rw [List.mem_singleton.1 first]
      exact .inr rfl
  · rw [List.mem_singleton.1 last]
    exact .inr rfl

theorem finish_code (m : Module) (e : VertexEmitter) : (e.finish m).2.code =
    m.code ++ [⟨.opReturn, none, none, []⟩, ⟨.opFunctionEnd, none, none, []⟩] :=
  List.append_assoc m.code _ _

end VertexEmitter

theorem Lifetime.emit_eq_ok {l : Lifetime} {m m' : Module} {s : Session}
    (done : l.emit m = .ok (s, m')) : ∃ e m₁ m₂, VertexEmitter.start m = (e, m₁) ∧
      Session.performAll ⟨e, [], []⟩ m₁ l.commands = .ok (s, m₂) ∧
      m' = (s.emitter.finish m₂).2 := by
  obtain ⟨stage, commands⟩ := l
  unfold emit at done
  cases stage with
  | vertex =>
    simp only [VertexEmitter.forStage] at done
    generalize started : VertexEmitter.start m = opened at done
    obtain ⟨e, m₁⟩ := opened
    obtain ⟨⟨session, m₂⟩, ran, same⟩ := bind_eq_ok.1 done
    cases same
    exact ⟨e, m₁, m₂, rfl, ran, rfl⟩
  | _ => cases done

theorem Lifetime.emit_stages {l : Lifetime} {m m' : Module} {s : Session} (sound : m.Sound)
    (done : l.emit m = .ok (s, m')) (fit : m'.IdsFit) :
    ∃ e void type label m₁ is m₂, VertexEmitter.start m = (e, m₁) ∧
      VertexEmitter.Opens m e void type label m₁ ∧
      Session.performAll ⟨e, [], []⟩ m₁ l.commands = .ok (s, m₂) ∧
      Emits [e.entry, label] m₁ is m₂ ∧ s.emitter.entry = e.entry ∧ s.emitter.output = e.output ∧
      m' = (s.emitter.finish m₂).2 := by
  obtain ⟨e, m₁, m₂, started, ran, rfl⟩ := emit_eq_ok done
  have fitEnd : m₂.IdsFit := fit
  have fitStart : m₁.IdsFit := fitEnd.of_le (Session.issued_le_performAll ran)
  obtain ⟨void, type, label, opens⟩ := (VertexEmitter.start_opens sound).of_run started fitStart
  obtain ⟨is, emits, -, entry, output⟩ :=
    Session.performAll_emits ran fitEnd opens.sound opens.refs_subset
  exact ⟨e, void, type, label, m₁, is, m₂, started, opens, ran, emits, entry, output, rfl⟩

/-- Between programs: the code is made of whole functions, each of them listed. -/
structure Module.Closed (m : Module) (blocks : List FunctionBlock) (sessions : List Session) :
    Prop where
  tidy : m.Tidy
  code : m.code = blocks.flatMap FunctionBlock.instructions
  inScope : ∀ b ∈ blocks, InScope (results m.globals) b.instructions
  entries : blocks.map FunctionBlock.entry = sessions.map fun s => s.emitter.entry
  entryPoints : m.entryPoints = sessions.map fun s => s.emitter.entryPoint
  outputs : ∀ s ∈ sessions, VertexEmitter.IsOutput m s.emitter.output

theorem Module.closed_empty : empty.Closed [] [] :=
  ⟨tidy_empty, rfl, by simp, rfl, rfl, by simp⟩

theorem Lifetime.emit_closed {l : Lifetime} {m m' : Module} {s : Session}
    {blocks : List FunctionBlock} {sessions : List Session} (closed : m.Closed blocks sessions)
    (done : l.emit m = .ok (s, m')) (fit : m'.IdsFit) :
    m.Extends m' ∧ ∃ b, m'.Closed (blocks ++ [b]) (sessions ++ [s]) := by
  obtain ⟨e, void, type, label, m₁, body, m₂, -, opens, -, emits, entry, output, rfl⟩ :=
    emit_stages closed.tidy.sound done fit
  have finished := VertexEmitter.finish_continues emits.sound.coherent s.emitter
  have grown : m.Extends (s.emitter.finish m₂).2 :=
    (opens.extension.trans emits.extension).trans finished.extension
  have sound := emits.sound.of_same_globals finished rfl
  refine ⟨grown, ⟨s.emitter.entry, void, type, label, body, emits.straight⟩, ?_, ?_, ?_, ?_, ?_, ?_⟩
  · have tidy : m₂.Tidy := (opens.tidy closed.tidy).emits emits
    refine tidy.append sound finished.extension (VertexEmitter.finish_code m₂ _) ?_ ?_
    · exact List.nodup_nil
    · simp [results]
  · rw [VertexEmitter.finish_code, emits.code, opens.code, closed.code, List.flatMap_append, entry]
    simp [FunctionBlock.instructions]
  · have inScope : InScope (results m₂.globals)
        (FunctionBlock.head s.emitter.entry void type label ++ body) := by
      rw [Instruction.inScope_append, entry]
      exact ⟨opens.inScope.mono emits.extension.results_subset, emits.inScope⟩
    intro b member
    rcases List.mem_append.1 member with old | last
    · exact (closed.inScope b old).mono grown.results_subset
    · obtain rfl := List.mem_singleton.1 last
      change InScope (results m₂.globals) _
      unfold FunctionBlock.instructions
      rw [Instruction.inScope_append]
      exact ⟨inScope, List.nil_subset _, List.nil_subset _, trivial⟩
  · rw [List.map_append, List.map_append, closed.entries]
    rfl
  · change m₂.entryPoints ++ [s.emitter.entryPoint] = _
    rw [emits.entryPoints, opens.entryPoints, closed.entryPoints, List.map_append]
    rfl
  · intro t member
    rcases List.mem_append.1 member with old | last
    · exact (closed.outputs t old).grows closed.tidy.sound grown
    · obtain rfl := List.mem_singleton.1 last
      rw [output]
      exact opens.output.grows opens.sound (emits.extension.trans finished.extension)

theorem issued_le_emit {l : Lifetime} {m m' : Module} {s : Session}
    (done : l.emit m = .ok (s, m')) : m.issued ≤ m'.issued := by
  obtain ⟨e, m₁, m₂, started, ran, rfl⟩ := Lifetime.emit_eq_ok done
  have first : m.issued ≤ (VertexEmitter.start m).2.issued := Monotone.issued_le m
  rw [started] at first
  have rest : m₁.issued ≤ m₂.issued := Session.issued_le_performAll ran
  exact Nat.le_trans first rest

theorem emitAll_cons_eq_ok {l : Lifetime} {ls : List Lifetime} {m m' : Module}
    {sessions : List Session} : emitAll (l :: ls) m = .ok (sessions, m') ↔
      ∃ s m₁ others, l.emit m = .ok (s, m₁) ∧ emitAll ls m₁ = .ok (others, m') ∧
        sessions = s :: others := by
  constructor
  · intro done
    obtain ⟨⟨s, m₁⟩, first, rest⟩ := bind_eq_ok.1 done
    obtain ⟨⟨others, m₂⟩, later, same⟩ := bind_eq_ok.1 rest
    cases same
    exact ⟨s, m₁, others, first, later, rfl⟩
  · rintro ⟨s, m₁, others, first, later, rfl⟩
    exact bind_eq_ok.2 ⟨(s, m₁), first, bind_eq_ok.2 ⟨(others, m'), later, rfl⟩⟩

theorem issued_le_emitAll {ls : List Lifetime} {m m' : Module} {sessions : List Session}
    (done : emitAll ls m = .ok (sessions, m')) : m.issued ≤ m'.issued := by
  induction ls generalizing m sessions with
  | nil =>
    cases done
    exact Nat.le_refl _
  | cons l ls ih =>
    obtain ⟨s, m₁, others, first, later, -⟩ := emitAll_cons_eq_ok.1 done
    exact Nat.le_trans (issued_le_emit first) (ih later)

theorem emitAll_closed {ls : List Lifetime} {m m' : Module} {before sessions : List Session}
    {blocks : List FunctionBlock} (closed : m.Closed blocks before)
    (done : emitAll ls m = .ok (sessions, m')) (fit : m'.IdsFit) :
    sessions.length = ls.length ∧ ∃ more, m'.Closed (blocks ++ more) (before ++ sessions) := by
  induction ls generalizing m before sessions blocks with
  | nil =>
    cases done
    exact ⟨rfl, [], by simpa using closed⟩
  | cons l ls ih =>
    obtain ⟨s, m₁, others, first, later, rfl⟩ := emitAll_cons_eq_ok.1 done
    obtain ⟨-, b, closedNext⟩ :=
      Lifetime.emit_closed closed first (fit.of_le (issued_le_emitAll later))
    obtain ⟨count, more, closedEnd⟩ := ih closedNext later
    exact ⟨by simp [count], b :: more, by simpa using closedEnd⟩

/-- Whatever programs are emitted into a module, it comes out well formed. -/
theorem emitted_module_wellFormed {lifetimes : List Lifetime} {sessions : List Session} {m : Module}
    (emitted : emitAll lifetimes Module.empty = .ok (sessions, m)) (fit : m.IdsFit) :
    (results (m.globals ++ m.code)).Nodup ∧ InScope [] m.globals ∧
    ∃ blocks : List FunctionBlock,
      m.code = blocks.flatMap FunctionBlock.instructions ∧
      (∀ b ∈ blocks, InScope (results m.globals) b.instructions) ∧
      blocks.length = lifetimes.length ∧
      blocks.map FunctionBlock.entry = sessions.map (fun s => s.emitter.entry) ∧
      m.entryPoints = sessions.map (fun s => ⟨s.emitter.entry, .vertex, "main", [s.emitter.output]⟩) ∧
      ∀ s ∈ sessions, ∃ pointer,
        ⟨.opVariable, some s.emitter.output, some pointer, [.storageClass .output]⟩ ∈ m.globals := by
  obtain ⟨count, blocks, closed⟩ := emitAll_closed Module.closed_empty emitted fit
  refine ⟨closed.tidy.nodup, closed.tidy.sound.inScope, blocks, closed.code, closed.inScope, ?_,
    closed.entries, closed.entryPoints, ?_⟩
  · have lengths := congrArg List.length closed.entries
    simpa [count] using lengths
  · intro s member
    obtain ⟨pointer, block, declared, -⟩ := closed.outputs s member
    exact ⟨pointer, closed.tidy.sound.coherent.declaration _ _ (.var declared)⟩

def twoPrograms : List Lifetime := [
  ⟨.vertex, [.reserve 2, .register 1, .floats [⟨1⟩, ⟨2⟩, ⟨3⟩, ⟨4⟩], .store 0 0 (.firstLanes 4),
    .load 0, .float ⟨1⟩, .merge 1 2 ⟨false, true, false, false⟩, .position,
    .store 1 3 (.firstLanes 4)]⟩,
  ⟨.vertex, [.valueType ⟨.uint64, .three, 5⟩, .floats [⟨1⟩, ⟨2⟩], .position, .vertexBlock,
    .store 0 0 ⟨true, false, false, true⟩]⟩]

theorem two_programs_wellFormed : ∃ sessions m, emitAll twoPrograms Module.empty = .ok (sessions, m) ∧
    (results (m.globals ++ m.code)).Nodup ∧ InScope [] m.globals ∧ m.entryPoints.length = 2 := by
  have check : (match emitAll twoPrograms Module.empty with
      | .ok (_, m) => decide m.IdsFit
      | .error _ => false) = true := by decide +kernel
  cases emitted : emitAll twoPrograms Module.empty with
  | error refusal => simp [emitted] at check
  | ok result =>
    obtain ⟨sessions, m⟩ := result
    simp only [emitted, decide_eq_true_eq] at check
    obtain ⟨distinct, inScope, blocks, -, -, count, entries, listed, -⟩ :=
      emitted_module_wellFormed emitted check
    refine ⟨sessions, m, rfl, distinct, inScope, ?_⟩
    have lengths := congrArg List.length entries
    simp only [List.length_map, count] at lengths
    rw [listed, List.length_map, ← lengths]
    rfl

end Shader
