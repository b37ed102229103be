import Shader.Proofs.RegisterFile

/-!
The block of built-in outputs in a module with a past. Questions about names and decorations are
answered by the first instruction that fits, so all depends on the block's id being new. Main
statement: whatever was registered before, a block has its four members with their types, names and
built-ins, nothing that was known before is answered otherwise, and the block is kept for ever.
-/

namespace Shader
open Build (Ensures Monotone Traced Keeps)

theorem findSome?_append_silent {α β : Type} {f : α → Option β} {old new : List α}
    (silent : ∀ a ∈ new, f a = none) : (old ++ new).findSome? f = old.findSome? f := by
  rw [List.findSome?_append, List.findSome?_eq_none_iff.2 silent, Option.or_none]

theorem findSome?_silent_append {α β : Type} {f : α → Option β} {old new : List α}
    (silent : ∀ a ∈ old, f a = none) : (old ++ new).findSome? f = new.findSome? f := by
  rw [List.findSome?_append, List.findSome?_eq_none_iff.2 silent, Option.none_or]

/-! Instructions have no answer about a target that they do not mention. -/

namespace Instruction
variable {target : ResultId} {i : Instruction}

theorem nameOf?_of_absent (absent : target ∉ i.ids) : i.nameOf? target = none := by
  unfold nameOf?
  split
  · exact if_neg fun same => absent (by simp [ids, Operand.ref?, same])
  · rfl

theorem memberNameOf?_of_absent (absent : target ∉ i.ids) (member : UInt32) :
    i.memberNameOf? target member = none := by
  unfold memberNameOf?
  split
  · exact if_neg fun same => absent (by simp [ids, Operand.ref?, same.1])
  · rfl

theorem memberBuiltInOf?_of_absent (absent : target ∉ i.ids) (member : UInt32) :
    i.memberBuiltInOf? target member = none := by
  unfold memberBuiltInOf?
  split
  · exact if_neg fun same => absent (by simp [ids, Operand.ref?, same.1])
  · rfl

theorem decorates_of_absent (absent : target ∉ i.ids) (decoration : Decoration) :
    i.decorates target decoration = false := by
  unfold decorates
  split
  · exact decide_eq_false fun same => absent (by simp [ids, Operand.ref?, same.1])
  · rfl

end Instruction

namespace Module
variable {m m' : Module} {id target : ResultId}

structure SameAnswers (m m' : Module) (id : ResultId) : Prop where
  type : m'.typeDecl? id = m.typeDecl? id
  constant : m'.constDecl? id = m.constDecl? id
  var : m'.varDecl? id = m.varDecl? id
  value : m'.resultType? id = m.resultType? id
  name : m'.name? id = m.name? id
  memberName : ∀ member, m'.memberName? id member = m.memberName? id member
  memberBuiltIn : ∀ member, m'.memberBuiltIn? id member = m.memberBuiltIn? id member
  decorated : ∀ decoration, m'.isDecorated id decoration = m.isDecorated id decoration

theorem Extends.sameAnswers (grown : m.Extends m') (given : id.index ≤ m.issued)
    {names annotations : List Instruction} (named : m'.names = m.names ++ names)
    (annotated : m'.annotations = m.annotations ++ annotations)
    (absent : ∀ i ∈ names ++ annotations, id ∉ i.ids) : m.SameAnswers m' id := by
  have inNames : ∀ i ∈ names, id ∉ i.ids := fun i member => absent i (List.mem_append_left _ member)
  have inAnnotations : ∀ i ∈ annotations, id ∉ i.ids :=
    fun i member => absent i (List.mem_append_right _ member)
  refine ⟨grown.types id given, grown.constants id given, grown.vars id given,
    grown.resultTypes id given, ?_, fun member => ?_, fun member => ?_, fun decoration => ?_⟩
  · rw [name?, name?, named]
    exact findSome?_append_silent fun i new => Instruction.nameOf?_of_absent (inNames i new)
  · rw [memberName?, memberName?, named]
    exact findSome?_append_silent fun i new =>
      Instruction.memberNameOf?_of_absent (inNames i new) member
  · rw [memberBuiltIn?, memberBuiltIn?, annotated]
    exact findSome?_append_silent fun i new =>
      Instruction.memberBuiltInOf?_of_absent (inAnnotations i new) member
  · have silent : annotations.any (Instruction.decorates id decoration) = false :=
      List.any_eq_false.2 fun i new => by
        simp [Instruction.decorates_of_absent (inAnnotations i new) decoration]
    rw [isDecorated, isDecorated, annotated, List.any_append, silent, Bool.or_false]

theorem Bounded.absent (bounded : m.Bounded) (new : m.issued < id.index) :
    ∀ i ∈ m.names ++ m.annotations, id ∉ i.ids := by
  intro i member mentioned
  have listed : id ∈ m.ids := by
    have mention : id ∈ (m.names ++ m.annotations ++ m.globals ++ m.code).flatMap Instruction.ids :=
      List.mem_flatMap.2 ⟨i, by simp only [List.mem_append] at member ⊢; tauto, mentioned⟩
    simp only [ids, List.mem_append, mention, true_or]
  exact Nat.not_lt.2 (bounded id listed) new

end Module

/-! Instructions written one after the other. -/

namespace Build
variable {α : Type}

instance : Undeclared Module.annotations := ⟨fun _ _ => rfl, fun _ _ => rfl⟩

theorem forM_annotate (f : α → Instruction) (xs : List α) (m : Module) :
    (xs.forM fun x => annotate (f x)) m =
      ((), { m with annotations := m.annotations ++ xs.map f }) := by
  induction xs generalizing m with
  | nil =>
    rw [List.map_nil, List.append_nil]
    rfl
  | cons x xs ih =>
    refine (ih (m.addAnnotation (f x))).trans ?_
    simp [Module.addAnnotation]

theorem forM_attachName (f : α → Instruction) (xs : List α) (m : Module) :
    (xs.forM fun x => attachName (f x)) m = ((), { m with names := m.names ++ xs.map f }) := by
  induction xs generalizing m with
  | nil =>
    rw [List.map_nil, List.append_nil]
    rfl
  | cons x xs ih =>
    refine (ih (m.addName (f x))).trans ?_
    simp [Module.addName]

end Build

theorem LogicalType.declareAll_reads {α : Type} (type : α → LogicalType) (xs : List α) {m : Module}
    (interned : m.Interned) : (xs.mapM fun x => (type x).declare).Ensures m fun ids m' =>
      m.Accumulates m' ∧ List.Forall₂ (fun x id => m'.logicalType? id = some (type x)) xs ids := by
  induction xs generalizing m with
  | nil => exact .pure ⟨⟨interned, .refl m⟩, .nil⟩
  | cons x xs ih =>
    rw [List.mapM_cons]
    refine (declare_reads interned (type x)).bind inferInstance ?_
    rintro id m₁ ⟨first, read⟩
    refine (ih first.interned).bind inferInstance ?_
    rintro ids m₂ ⟨second, reads⟩
    exact .pure ⟨first.trans second, .cons
      (logicalType?_grows first.interned second.extension read) reads⟩

theorem Build.declareType_struct {m : Module} (interned : m.Interned) (members : List ResultId) :
    declareType (.struct members) m = (m.freshId, m.addType (.struct members)) := by
  have unshared : assoc? (.struct members) m.typeIds = none := by
    refine Option.eq_none_iff_forall_ne_some.2 fun id found => ?_
    cases ((interned.sharedType _ id).1 found).1
  rw [declareType, unshared]

namespace VertexBlock
variable {m m' : Module} {block : ResultId}

def builtIns : List BuiltIn := [.position, .pointSize, .cullDistance, .clipDistance]

def memberNames : List String := ["position", "point_size", "cull_dist", "clip_dist"]

/-- A struct of a vector of four floats, a float and two arrays of two floats, with the decorations and
the names of a block and its members. -/
structure Furnished (m : Module) (block : ResultId) : Prop where
  shape : ∃ position size cull clip, m.typeDecl? block = some (.struct [position, size, cull, clip]) ∧
    m.logicalType? position = some ⟨.float32, .four, 0⟩ ∧
    m.logicalType? size = some ⟨.float32, .one, 0⟩ ∧
    m.logicalType? cull = some ⟨.float32, .one, 2⟩ ∧
    m.logicalType? clip = some ⟨.float32, .one, 2⟩
  decorated : m.isDecorated block .block
  named : m.name? block = some "per_vertex"
  builtIn : ∀ k builtIn, builtIns[k.toNat]? = some builtIn → m.memberBuiltIn? block k = some builtIn
  memberName : ∀ k text, memberNames[k.toNat]? = some text → m.memberName? block k = some text

theorem Furnished.grows (furnished : Furnished m block) (interned : m.Interned)
    (grown : m.Extends m') : Furnished m' block := by
  obtain ⟨position, size, cull, clip, known, first, second, third, fourth⟩ := furnished.shape
  have reads : ∀ id t, m.logicalType? id = some t → m'.logicalType? id = some t :=
    fun _ _ read => LogicalType.logicalType?_grows interned grown read
  refine ⟨⟨position, size, cull, clip, interned.typeDecl grown known, reads _ _ first,
    reads _ _ second, reads _ _ third, reads _ _ fourth⟩, ?_, ?_, ?_, ?_⟩
  · obtain ⟨i, member, decorates⟩ := List.any_eq_true.1 furnished.decorated
    exact List.any_eq_true.2 ⟨i, grown.annotations.subset member, decorates⟩
  · exact findSome?_of_prefix grown.names furnished.named
  · exact fun k builtIn found =>
      findSome?_of_prefix grown.annotations (furnished.builtIn k builtIn found)
  · exact fun k text found =>
      findSome?_of_prefix grown.names (furnished.memberName k text found)

/-! What declaring a block writes. -/

def memberDecoration (block : ResultId) (member : Member) : Instruction :=
  ⟨.opMemberDecorate, none, none,
    [.ref block, .literal member.index, .decoration .builtIn, .builtIn member.builtIn]⟩

def memberNaming (block : ResultId) (member : Member) : Instruction :=
  ⟨.opMemberName, none, none, [.ref block, .literal member.index, .string member.name]⟩

def annotations (block : ResultId) : List Instruction :=
  Member.all.map (memberDecoration block) ++
    [⟨.opDecorate, none, none, [.ref block, .decoration .block]⟩]

def names (block : ResultId) : List Instruction :=
  ⟨.opName, none, none, [.ref block, .string "per_vertex"]⟩ :: Member.all.map (memberNaming block)

theorem ids_of_mem {i : Instruction} (member : i ∈ names block ++ annotations block) :
    i.ids = [block] := by
  simp only [names, annotations, List.mem_append, List.mem_cons, List.mem_map,
    List.not_mem_nil, or_false] at member
  rcases member with (rfl | ⟨x, -, rfl⟩) | ⟨x, -, rfl⟩ | rfl <;> rfl

theorem describe_run (block : ResultId) (m : Module) :
    (do
      Member.all.forM fun member => Build.decorateMember block member.index member.builtIn
      Build.decorate block .block []
      Build.name block "per_vertex"
      Member.all.forM fun member => Build.nameMember block member.index member.name
      return block : Build ResultId) m =
    (block, { m with
      annotations := m.annotations ++ annotations block
      names := m.names ++ names block }) := by
  refine (Build.bind_of_run (Build.forM_annotate (memberDecoration block) Member.all m) _).trans ?_
  refine (Build.bind_of_run rfl _).trans ((Build.bind_of_run rfl _).trans ?_)
  refine (Build.bind_of_run (Build.forM_attachName (memberNaming block) Member.all _) _).trans ?_
  change (block, _) = _
  simp [annotations, names, Module.addAnnotation, Module.addName]

/-- Declaring a block writes names and annotations for it and no others, under an id that is new. -/
theorem declare_describes (interned : m.Interned) : declare.Ensures m fun block m' =>
    m.issued < block.index ∧ m'.names = m.names ++ names block ∧
    m'.annotations = m.annotations ++ annotations block ∧
    ∃ members, m'.typeDecl? block = some (.struct members) ∧
      List.Forall₂ (fun member id => m'.logicalType? id = some member.type) Member.all members := by
  have declared : (Member.all.mapM fun member : Member => member.type.declare).Ensures m
      fun members m₁ =>
      m.Accumulates m₁ ∧ m₁.names = m.names ∧ m₁.annotations = m.annotations ∧
      List.Forall₂ (fun member id => m₁.logicalType? id = some member.type) Member.all members := by
    intro fit
    obtain ⟨grown, reads⟩ := LogicalType.declareAll_reads Member.type Member.all interned fit
    exact ⟨grown, Keeps.eq Module.names _ m, Keeps.eq Module.annotations _ m, reads⟩
  refine declared.bind inferInstance ?_
  rintro members m₁ ⟨grown, sameNames, sameAnnotations, reads⟩ fit
  rw [Build.bind_of_run (Build.declareType_struct grown.interned members), describe_run] at fit ⊢
  have fit₁ : m₁.IdsFit := fit.of_le (Nat.le_succ _)
  have later := grown.extension.issued
  refine ⟨?_, ?_, ?_, members, Table.get?_insert_self .., ?_⟩
  · rw [Module.index_freshId fit₁]
    omega
  · rw [← sameNames]
    rfl
  · rw [← sameAnnotations]
    rfl
  · exact reads.imp fun _ _ read =>
      LogicalType.logicalType?_grows grown.interned (Module.extends_addType fit₁ _) read

theorem Member.findSome?_index {β : Type} (f : Member → β) (k : UInt32) :
    (all.findSome? fun member => if member.index = k then some (f member) else none) =
      (all.map f)[k.toNat]? := by
  by_cases early : k.toNat < 4
  · obtain zero | one | two | three : k.toNat = 0 ∨ k.toNat = 1 ∨ k.toNat = 2 ∨ k.toNat = 3 := by
      omega
    · obtain rfl : k = 0 := UInt32.toNat_inj.1 zero
      rfl
    · obtain rfl : k = 1 := UInt32.toNat_inj.1 one
      rfl
    · obtain rfl : k = 2 := UInt32.toNat_inj.1 two
      rfl
    · obtain rfl : k = 3 := UInt32.toNat_inj.1 three
      rfl
  · rw [List.getElem?_eq_none (by simpa [all] using early), List.findSome?_eq_none_iff]
    intro member _
    refine if_neg ?_
    rintro rfl
    cases member <;> exact early (by decide)

theorem memberNameOf?_memberNaming (k : UInt32) (member : Member) :
    (memberNaming block member).memberNameOf? block k =
      if member.index = k then some member.name else none := by
  simp [memberNaming, Instruction.memberNameOf?]

theorem memberBuiltInOf?_memberDecoration (k : UInt32) (member : Member) :
    (memberDecoration block member).memberBuiltInOf? block k =
      if member.index = k then some member.builtIn else none := by
  simp [memberDecoration, Instruction.memberBuiltInOf?]

section Answers
variable (absent : ∀ i ∈ m.names ++ m.annotations, block ∉ i.ids)
  (named : m'.names = m.names ++ names block)
  (annotated : m'.annotations = m.annotations ++ annotations block)

include absent named in
theorem name?_of_described : m'.name? block = some "per_vertex" := by
  rw [Module.name?, named, findSome?_silent_append fun i member =>
    Instruction.nameOf?_of_absent (absent i (List.mem_append_left _ member))]
  simp [names, Instruction.nameOf?]

include absent named in
theorem memberName?_of_described (k : UInt32) : m'.memberName? block k = memberNames[k.toNat]? := by
  rw [Module.memberName?, named, findSome?_silent_append fun i member =>
    Instruction.memberNameOf?_of_absent (absent i (List.mem_append_left _ member)) k]
  calc (names block).findSome? (Instruction.memberNameOf? block k)
      = (Member.all.map (memberNaming block)).findSome? (Instruction.memberNameOf? block k) := rfl
    _ = Member.all.findSome? fun member =>
          if member.index = k then some member.name else none := by
        simp only [List.findSome?_map, Function.comp_def, memberNameOf?_memberNaming]
    _ = memberNames[k.toNat]? := Member.findSome?_index Member.name k

include absent annotated in
theorem memberBuiltIn?_of_described (k : UInt32) :
    m'.memberBuiltIn? block k = builtIns[k.toNat]? := by
  rw [Module.memberBuiltIn?, annotated, findSome?_silent_append fun i member =>
    Instruction.memberBuiltInOf?_of_absent (absent i (List.mem_append_right _ member)) k]
  calc (annotations block).findSome? (Instruction.memberBuiltInOf? block k)
      = (Member.all.map (memberDecoration block)).findSome?
          (Instruction.memberBuiltInOf? block k) :=
        findSome?_append_silent fun i last => by
          obtain rfl := List.mem_singleton.1 last
          rfl
    _ = Member.all.findSome? fun member =>
          if member.index = k then some member.builtIn else none := by
        simp only [List.findSome?_map, Function.comp_def, memberBuiltInOf?_memberDecoration]
    _ = builtIns[k.toNat]? := Member.findSome?_index Member.builtIn k

include annotated in
theorem isDecorated_of_described : m'.isDecorated block .block := by
  rw [Module.isDecorated, annotated]
  simp [annotations, Instruction.decorates]

end Answers

theorem declare_furnishes (interned : m.Interned) (bounded : m.Bounded) :
    declare.Ensures m fun block m' => m.issued < block.index ∧ Furnished m' block ∧
      (∀ k, m'.memberBuiltIn? block k = builtIns[k.toNat]?) ∧
      (∀ k, m'.memberName? block k = memberNames[k.toNat]?) ∧
      ∀ id, id.index ≤ m.issued → m.SameAnswers m' id := by
  intro fit
  obtain ⟨new, named, annotated, members, known, reads⟩ := declare_describes interned fit
  have grown := Traced.accumulates interned declare fit
  have absent := bounded.absent new
  have builtIn := memberBuiltIn?_of_described absent annotated
  have memberName := memberName?_of_described absent named
  refine ⟨new, ⟨?_, isDecorated_of_described annotated, name?_of_described absent named,
    fun k b found => (builtIn k).trans found, fun k text found => (memberName k).trans found⟩,
    builtIn, memberName, fun id given => ?_⟩
  · cases reads with | cons first reads =>
    cases reads with | cons second reads =>
    cases reads with | cons third reads =>
    cases reads with | cons fourth reads =>
    cases reads
    exact ⟨_, _, _, _, known, first, second, third, fourth⟩
  · refine grown.extension.sameAnswers given named annotated fun i member mentioned => ?_
    rw [ids_of_mem member, List.mem_singleton] at mentioned
    rw [mentioned] at given
    exact Nat.not_lt.2 given new

end VertexBlock

namespace Workshop

/-- Whatever was done to a module, if every id was below the bound when it was passed, a block of
outputs gets an id that was never given out. It has the four members with their types, built-ins and
names and no others, and what was answered about other ids before is answered still. Whatever is done
then, the block stays as it is. -/
theorem block_furnished_for_ever {before after : List Operation} {w w' : Workshop}
    {block : ResultId} {m : Module} (reached : performAll {} before = some w)
    (passes : passesBelow {} before) (declared : VertexBlock.declare w.module = (block, m))
    (went : performAll { w with module := m } after = some w') (fit : w'.module.IdsFit) :
    (w.module.bound ≤ block.word ∧
      ∀ log, Module.empty.Trace log w.module → block ∉ log.map Prod.snd) ∧
    VertexBlock.Furnished m block ∧
    (∀ k, m.memberBuiltIn? block k = VertexBlock.builtIns[k.toNat]?) ∧
    (∀ k, m.memberName? block k = VertexBlock.memberNames[k.toNat]?) ∧
    (∀ id, id.word < w.module.bound → w.module.SameAnswers m id) ∧
    VertexBlock.Furnished w'.module block := by
  have fitHere : m.IdsFit := fit.of_le (issued_le_performAll went)
  have fitStart : w.module.IdsFit := by
    have le := Monotone.issued_le (x := VertexBlock.declare) w.module
    rw [declared] at le
    exact fitHere.of_le le
  have interned := reached_interned reached fitStart
  have bounded := (performAll_bounded reached fitStart passes bounded_empty).module
  obtain ⟨new, furnished, builtIn, memberName, same⟩ :=
    (VertexBlock.declare_furnishes interned bounded).of_run declared fitHere
  have grown := (Traced.accumulates interned VertexBlock.declare).of_run declared fitHere
  refine ⟨⟨?_, fun log trace listed => ?_⟩, furnished, builtIn, memberName, ?_, ?_⟩
  · rw [UInt32.le_iff_toNat_le, Module.toNat_bound fitStart]
    exact new
  · obtain ⟨entry, member, rfl⟩ := List.mem_map.1 listed
    exact Nat.not_lt.2 (trace.given fitStart entry member) new
  · exact fun id below => same id ((Module.lt_bound_iff fitStart).1 below)
  · exact furnished.grows grown.interned (performAll_accumulates went fit grown.interned).extension

def crowded : List Operation :=
  [.startStage .vertex, .edit (.nameMember ⟨3⟩ 0 "first"), .edit (.decorateMember ⟨3⟩ 0 .pointSize),
    .direct .vertexBlock, .direct (.reserve 1)]

def overwriting : List Operation :=
  [.edit (.decorateMember ⟨16⟩ 0 .clipDistance), .edit (.name ⟨16⟩ "other"),
    .edit (.nameMember ⟨16⟩ 0 "extra"), .finish]

theorem crowded_block_furnished :
    ∃ w w' m, performAll {} crowded = some w ∧ passesBelow {} crowded ∧
      VertexBlock.declare w.module = (⟨16⟩, m) ∧
      performAll { w with module := m } overwriting = some w' ∧ w'.module.IdsFit ∧
      VertexBlock.Furnished m ⟨16⟩ ∧ m.memberBuiltIn? ⟨16⟩ 4 = none ∧
      w.module.SameAnswers m ⟨3⟩ ∧ VertexBlock.Furnished w'.module ⟨16⟩ := by
  have passes : passesBelow {} crowded = true := by decide +kernel
  have runs : (performAll {} crowded).any (fun w =>
      decide ((VertexBlock.declare w.module).1 = ⟨16⟩) && (decide (3 < w.module.bound) &&
        (performAll { w with module := (VertexBlock.declare w.module).2 } overwriting).any
          fun w' => decide w'.module.IdsFit)) = true := by
    decide +kernel
  obtain ⟨w, reached, here⟩ := (Option.any_eq_true _ _).1 runs
  cases declared : VertexBlock.declare w.module with
  | mk block m =>
  simp only [declared, Bool.and_eq_true, decide_eq_true_eq] at here
  obtain ⟨rfl, given, later⟩ := here
  obtain ⟨w', went, fits⟩ := (Option.any_eq_true _ _).1 later
  have fit : w'.module.IdsFit := of_decide_eq_true fits
  obtain ⟨-, furnished, builtIn, -, same, stays⟩ :=
    block_furnished_for_ever reached passes declared went fit
  exact ⟨w, w', m, reached, passes, declared, went, fit, furnished, builtIn 4, same ⟨3⟩ given, stays⟩

end Workshop
end Shader
