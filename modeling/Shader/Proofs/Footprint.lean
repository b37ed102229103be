import Shader.Proofs.Execution

/-!
Footprints. Code that refers to ids of its own and to shared constants only, on a machine whose
addresses stay among its own variables, runs alike whatever else the machine holds, and changes
nothing else. Main statement: two pieces of code whose own ids are apart may run in either order.
-/

namespace Shader

def Matches {ε α : Type} (P : α → Prop) (x y : Except ε α) : Prop := ∀ a, x = .ok a → y = .ok a ∧ P a

section Matching
variable {ε α β : Type} {P : α → Prop} {Q : β → Prop}

theorem Matches.same {x : Except ε α} (holds : ∀ a, x = .ok a → P a) : Matches P x x :=
  fun a found => ⟨found, holds a found⟩

theorem Matches.bind {x y : Except ε α} {f g : α → Except ε β} (first : Matches P x y)
    (second : ∀ a, P a → Matches Q (f a) (g a)) : Matches Q (x >>= f) (y >>= g) := by
  intro b found
  obtain ⟨a, one, two⟩ := bind_eq_ok.1 found
  obtain ⟨same, holds⟩ := first a one
  obtain ⟨rest, result⟩ := second a holds b two
  exact ⟨bind_eq_ok.2 ⟨a, same, rest⟩, result⟩

end Matching

namespace Contents
variable {own : ResultId → Prop}

/-- Every address in the contents leads to a variable of the given ones. -/
inductive Within (own : ResultId → Prop) : Contents → Prop where
  | scalar (bits : UInt64) : Within own (.scalar bits)
  | composite {parts : List Contents} (each : ∀ part ∈ parts, Within own part) :
      Within own (.composite parts)
  | address {var : ResultId} (path : List UInt32) (here : own var) : Within own (.address var path)

theorem Within.part {c d : Contents} {index : UInt32} (within : Within own c)
    (found : c.part index = .ok d) : Within own d := by
  cases within with
  | composite each =>
    simp only [Contents.part] at found
    split at found
    · rename_i there
      cases found
      exact each _ (List.mem_of_getElem? there)
    · cases found
  | scalar bits => cases found
  | address path here => cases found

theorem Within.setPart {c x : Contents} (within : Within own c) (new : Within own x)
    (index : UInt32) : Within own (c.setPart index x) := by
  cases within with
  | composite each =>
    refine .composite ?_
    intro part member
    rcases List.mem_or_eq_of_mem_set member with old | rfl
    · exact each part old
    · exact new
  | scalar bits => exact .scalar bits
  | address path here => exact .address path here

theorem Within.read {c d : Contents} {path : List UInt32} (within : Within own c)
    (found : c.read path = .ok d) : Within own d := by
  induction path generalizing c with
  | nil =>
    cases found
    exact within
  | cons index path ih =>
    obtain ⟨part, there, rest⟩ := bind_eq_ok.1 found
    exact ih (within.part there) rest

theorem Within.write {c d x : Contents} {path : List UInt32} (within : Within own c)
    (new : Within own x) (found : c.write path x = .ok d) : Within own d := by
  induction path generalizing c d with
  | nil =>
    cases found
    exact new
  | cons index path ih =>
    obtain ⟨part, changed, there, written, rfl⟩ := write_cons_eq_ok.1 found
    exact within.setPart (ih (within.part there) written) index

end Contents

structure Instruction.Local (own shared : ResultId → Prop) (i : Instruction) : Prop where
  operands : ∀ id ∈ i.operands.filterMap Operand.ref?, own id ∨ shared id
  result : ∀ id, i.result = some id → own id

def Effect.Within (own : ResultId → Prop) : Effect → Prop
  | .nothing => True
  | .store var contents => own var ∧ contents.Within own
  | .define id contents => own id ∧ contents.Within own

namespace Instruction
variable {own shared : ResultId → Prop} {i : Instruction} (here : i.Local own shared)
include here

theorem requireRef_matches (position : Nat) :
    Matches (fun id => own id ∨ shared id) (i.requireRef position) (i.requireRef position) := by
  refine .same ?_
  intro id found
  unfold requireRef at found
  split at found
  · rename_i there
    cases found
    obtain ⟨operand, at', isRef⟩ := Option.bind_eq_some_iff.1 there
    exact here.operands id (List.mem_filterMap.2 ⟨operand, List.mem_of_getElem? at', isRef⟩)
  · cases found

theorem define_matches {c : Contents} (within : c.Within own) :
    Matches (Effect.Within own) (i.define c) (i.define c) := by
  refine .same ?_
  intro e found
  unfold define at found
  split at found
  · rename_i id result
    cases found
    exact ⟨here.result id result, within⟩
  · cases found

end Instruction

namespace Machine
variable {own shared : ResultId → Prop} {s t : Machine}

/-- The machines hold the same under the code's own ids and the shared ones. Shared ids are no
variables, and no address leads to a variable that is not the code's own. -/
structure SameOn (own shared : ResultId → Prop) (s t : Machine) : Prop where
  memory : ∀ id, own id → t.memory.get? id = s.memory.get? id
  values : ∀ id, own id ∨ shared id → t.values.get? id = s.values.get? id
  noVariable : ∀ id, shared id → s.memory.get? id = none ∧ t.memory.get? id = none
  memoryWithin : ∀ id c, own id → s.memory.get? id = some c → c.Within own
  valuesWithin : ∀ id c, own id ∨ shared id → s.values.get? id = some c → c.Within own

section Reading
variable (same : SameOn own shared s t)
include same

theorem SameOn.value {id : ResultId} (known : own id ∨ shared id) :
    Matches (Contents.Within own) (s.value id) (t.value id) := by
  intro c found
  unfold Machine.value at found ⊢
  rw [same.values id known]
  cases there : s.values.get? id with
  | none => simp [there] at found
  | some d =>
    simp only [there, Except.ok.injEq] at found ⊢
    exact ⟨found, found ▸ same.valuesWithin id d known there⟩

theorem SameOn.contents {id : ResultId} (mine : own id) :
    Matches (Contents.Within own) (s.contents id) (t.contents id) := by
  intro c found
  unfold Machine.contents at found ⊢
  rw [same.memory id mine]
  cases there : s.memory.get? id with
  | none => simp [there] at found
  | some d =>
    simp only [there, Except.ok.injEq] at found ⊢
    exact ⟨found, found ▸ same.memoryWithin id d mine there⟩

theorem SameOn.memory_of_known {id : ResultId} (known : own id ∨ shared id) :
    t.memory.get? id = s.memory.get? id := by
  rcases known with mine | common
  · exact same.memory id mine
  · rw [(same.noVariable id common).1, (same.noVariable id common).2]

theorem SameOn.cell {id : ResultId} (known : own id ∨ shared id) :
    Matches (fun place => own place.1) (s.cell id) (t.cell id) := by
  intro place found
  unfold Machine.cell Table.contains at found ⊢
  rw [same.memory_of_known known, same.values id known]
  refine ⟨found, ?_⟩
  cases inMemory : s.memory.get? id with
  | some c =>
    simp only [inMemory, Option.isSome_some, if_true, Except.ok.injEq] at found
    rcases known with mine | common
    · exact found ▸ mine
    · simp [(same.noVariable id common).1] at inMemory
  | none =>
    simp only [inMemory, Option.isSome_none] at found
    split at found
    · contradiction
    · rename_i there
      split at found
      · rename_i var path value
        cases found
        cases same.valuesWithin id _ known value with
        | address path here => exact here
      · cases found

theorem SameOn.index {id : ResultId} (known : own id ∨ shared id) :
    Matches (fun _ => True) (s.index id) (t.index id) :=
  (same.value known).bind fun _ _ => .same fun _ _ => trivial

theorem SameOn.indices (opcode : Opcode) (position : Nat) {operands : List Operand}
    (known : ∀ id ∈ operands.filterMap Operand.ref?, own id ∨ shared id) :
    Matches (fun _ => True) (s.indices opcode position operands)
      (t.indices opcode position operands) := by
  induction operands generalizing position with
  | nil => exact .same fun _ _ => trivial
  | cons operand rest ih =>
    unfold Machine.indices
    cases here : operand.ref? with
    | none => exact .same fun _ _ => trivial
    | some id =>
      simp only [List.filterMap_cons, here, List.mem_cons, forall_eq_or_imp] at known
      refine (same.index known.1).bind fun index _ => ?_
      exact (ih (position + 1) known.2).bind fun _ _ => .same fun _ _ => trivial

theorem SameOn.parts {id : ResultId} (known : own id ∨ shared id) :
    Matches (fun parts => ∀ part ∈ parts, Contents.Within own part) (s.parts id) (t.parts id) := by
  refine (same.value known).bind ?_
  intro c within
  refine .same ?_
  intro parts found
  cases within with
  | composite each =>
    cases found
    exact each
  | scalar bits => cases found
  | address path here => cases found

end Reading

theorem select_mem {opcode : Opcode} {lanes : List Contents} {selector : Operand} {c : Contents}
    (found : select opcode lanes selector = .ok c) : c ∈ lanes := by
  unfold select at found
  split at found
  · cases found
  · split at found
    · rename_i there
      cases found
      exact List.mem_of_getElem? there
    · cases found

theorem SameOn.effect (same : SameOn own shared s t) {i : Instruction} (here : i.Local own shared) :
    Matches (Effect.Within own) (s.effect i) (t.effect i) := by
  have later : ∀ n, ∀ id ∈ (i.operands.drop n).filterMap Operand.ref?, own id ∨ shared id := by
    intro n id member
    exact here.operands id (((List.drop_sublist n _).filterMap _).subset member)
  unfold Machine.effect
  cases i.opcode with
  | opLabel =>
    refine .same ?_
    intro e found
    cases found
    trivial
  | opLoad =>
    refine (Instruction.requireRef_matches here 0).bind fun p known => ?_
    refine (same.cell known).bind fun place mine => ?_
    refine (same.contents mine).bind fun c within => ?_
    exact .bind (.same fun d found => within.read found) fun d inside =>
      Instruction.define_matches here inside
  | opStore =>
    refine (Instruction.requireRef_matches here 0).bind fun p known => ?_
    refine (same.cell known).bind fun place mine => ?_
    refine (Instruction.requireRef_matches here 1).bind fun q object => ?_
    refine (same.value object).bind fun x stored => ?_
    refine (same.contents mine).bind fun c within => ?_
    refine .bind (.same fun d found => within.write stored found) fun d inside => ?_
    refine .same ?_
    intro e found
    cases found
    exact ⟨mine, inside⟩
  | opAccessChain =>
    refine (Instruction.requireRef_matches here 0).bind fun p known => ?_
    refine (same.cell known).bind fun place mine => ?_
    refine (same.indices _ _ (later 1)).bind fun indices _ => ?_
    exact Instruction.define_matches here (.address _ mine)
  | opCompositeInsert =>
    refine (Instruction.requireRef_matches here 0).bind fun p object => ?_
    refine (same.value object).bind fun x inserted => ?_
    refine (Instruction.requireRef_matches here 1).bind fun q known => ?_
    refine (same.value known).bind fun c within => ?_
    exact .bind (.same fun d found => within.write inserted found) fun d inside =>
      Instruction.define_matches here inside
  | opVectorShuffle =>
    refine (Instruction.requireRef_matches here 0).bind fun p known => ?_
    refine (same.parts known).bind fun first withinFirst => ?_
    refine (Instruction.requireRef_matches here 1).bind fun q known => ?_
    refine (same.parts known).bind fun second withinSecond => ?_
    refine .bind (.same (P := fun lanes => ∀ lane ∈ lanes, Contents.Within own lane) ?_)
      fun lanes within => Instruction.define_matches here (.composite within)
    intro lanes found lane member
    obtain ⟨selector, selected⟩ := exists_of_mem_forall₂ (mapM_eq_ok.1 found) lane member
    rcases List.mem_append.1 (select_mem selected) with left | right
    · exact withinFirst lane left
    · exact withinSecond lane right
  | _ =>
    refine .same ?_
    intro e found
    cases found

/-- Outside the code's own ids the second machine holds what the first one held. -/
structure Frame (own : ResultId → Prop) (s t : Machine) : Prop where
  memory : ∀ id, ¬own id → t.memory.get? id = s.memory.get? id
  values : ∀ id, ¬own id → t.values.get? id = s.values.get? id

theorem Frame.trans {u : Machine} (first : Frame own s t) (second : Frame own t u) :
    Frame own s u where
  memory id other := (second.memory id other).trans (first.memory id other)
  values id other := (second.values id other).trans (first.values id other)

theorem frame_apply {e : Effect} (within : e.Within own) (s : Machine) : Frame own s (s.apply e) := by
  cases e with
  | nothing => exact ⟨fun _ _ => rfl, fun _ _ => rfl⟩
  | store var c =>
    refine ⟨?_, fun _ _ => rfl⟩
    intro id other
    exact Table.get?_insert_of_ne _ _ fun same => other (same ▸ within.1)
  | define key c =>
    refine ⟨fun _ _ => rfl, ?_⟩
    intro id other
    exact Table.get?_insert_of_ne _ _ fun same => other (same ▸ within.1)

theorem SameOn.apply (same : SameOn own shared s t) (apart : ∀ id, shared id → ¬own id)
    {e : Effect} (within : e.Within own) : SameOn own shared (s.apply e) (t.apply e) := by
  cases e with
  | nothing => exact same
  | store var c =>
    constructor
    case memory =>
      intro id mine
      simp only [Machine.apply, Table.get?_insert, same.memory id mine]
    case values => exact same.values
    case noVariable =>
      intro id common
      have differ : id ≠ var := fun eq => apart id common (eq ▸ within.1)
      simpa only [Machine.apply, Table.get?_insert_of_ne _ _ differ] using same.noVariable id common
    case memoryWithin =>
      intro id d mine known
      simp only [Machine.apply, Table.get?_insert] at known
      split at known
      · cases known
        exact within.2
      · exact same.memoryWithin id d mine known
    case valuesWithin => exact same.valuesWithin
  | define key c =>
    constructor
    case memory => exact same.memory
    case values =>
      intro id known
      simp only [Machine.apply, Table.get?_insert, same.values id known]
    case noVariable => exact same.noVariable
    case memoryWithin => exact same.memoryWithin
    case valuesWithin =>
      intro id d known there
      simp only [Machine.apply, Table.get?_insert] at there
      split at there
      · cases there
        exact within.2
      · exact same.valuesWithin id d known there

theorem SameOn.step (same : SameOn own shared s t) (apart : ∀ id, shared id → ¬own id)
    {i : Instruction} (here : i.Local own shared) {s' : Machine} (run : s.step i = .ok s') :
    ∃ t', t.step i = .ok t' ∧ SameOn own shared s' t' ∧ Frame own t t' ∧
      t'.executed = t.executed + 1 := by
  obtain ⟨e, found, rfl⟩ := step_eq_ok.1 run
  obtain ⟨foundToo, within⟩ := same.effect here e found
  have applied := same.apply apart within
  have framed := frame_apply within t
  exact ⟨_, step_eq_ok.2 ⟨e, foundToo, rfl⟩,
    ⟨applied.memory, applied.values, applied.noVariable, applied.memoryWithin, applied.valuesWithin⟩,
    ⟨framed.memory, framed.values⟩, rfl⟩

theorem SameOn.execute (same : SameOn own shared s t) (apart : ∀ id, shared id → ¬own id)
    {is : List Instruction} (here : ∀ i ∈ is, i.Local own shared) {s' : Machine}
    (run : s.execute is = .ok s') :
    ∃ t', t.execute is = .ok t' ∧ SameOn own shared s' t' ∧ Frame own t t' ∧
      t'.executed = t.executed + is.length := by
  induction is generalizing s t with
  | nil =>
    cases run
    exact ⟨t, rfl, same, ⟨fun _ _ => rfl, fun _ _ => rfl⟩, rfl⟩
  | cons i is ih =>
    obtain ⟨u, first, rest⟩ := bind_eq_ok.1 run
    obtain ⟨v, second, next, framed, counted⟩ := same.step apart (here i List.mem_cons_self) first
    obtain ⟨t', last, final, framedLater, countedLater⟩ :=
      ih next (fun j member => here j (List.mem_cons_of_mem _ member)) rest
    refine ⟨t', bind_eq_ok.2 ⟨v, second, last⟩, final, framed.trans framedLater, ?_⟩
    rw [countedLater, counted, List.length_cons]
    omega

theorem SameOn.after {other : ResultId → Prop} {u : Machine} (same : SameOn own shared s s)
    (framed : Frame other s u) (apart : ∀ id, own id → ¬other id)
    (common : ∀ id, shared id → ¬other id) : SameOn own shared s u where
  memory id mine := framed.memory id (apart id mine)
  values id known := framed.values id (known.elim (apart id) (common id))
  noVariable id known := by
    have unknown := (same.noVariable id known).1
    exact ⟨unknown, (framed.memory id (common id known)).trans unknown⟩
  memoryWithin := same.memoryWithin
  valuesWithin := same.valuesWithin

theorem ext_get? {s t : Machine} (memory : ∀ id, s.memory.get? id = t.memory.get? id)
    (values : ∀ id, s.values.get? id = t.values.get? id) (executed : s.executed = t.executed) :
    s = t := by
  cases s
  cases t
  simp only [Machine.mk.injEq]
  exact ⟨Table.ext_get? memory, Table.ext_get? values, executed⟩

/-- Code with footprints apart may run in either order. -/
theorem execute_commute {own other shared : ResultId → Prop} {is js : List Instruction}
    {t u : Machine} (first : SameOn own shared s s) (second : SameOn other shared s s)
    (apart : ∀ id, own id → ¬other id) (common : ∀ id, shared id → ¬own id ∧ ¬other id)
    (here : ∀ i ∈ is, i.Local own shared) (there : ∀ j ∈ js, j.Local other shared)
    (run : s.execute is = .ok t) (run' : s.execute js = .ok u) :
    ∃ final, t.execute js = .ok final ∧ u.execute is = .ok final ∧ Frame own s t ∧ Frame other s u ∧
      (∀ id, own id → final.memory.get? id = t.memory.get? id) ∧
      (∀ id, other id → final.memory.get? id = u.memory.get? id) ∧
      ∀ id, ¬own id → ¬other id → final.memory.get? id = s.memory.get? id := by
  have notOwn : ∀ id, shared id → ¬own id := fun id known => (common id known).1
  have notOther : ∀ id, shared id → ¬other id := fun id known => (common id known).2
  have apart' : ∀ id, other id → ¬own id := fun id theirs mine => apart id mine theirs
  obtain ⟨t', alone, -, frameT, countT⟩ := first.execute notOwn here run
  obtain rfl := Except.ok.inj (run.symm.trans alone)
  obtain ⟨u', alone', -, frameU, countU⟩ := second.execute notOther there run'
  obtain rfl := Except.ok.inj (run'.symm.trans alone')
  obtain ⟨v, runV, sameV, frameV, countV⟩ :=
    (second.after frameT apart' notOwn).execute notOther there run'
  obtain ⟨w, runW, sameW, frameW, countW⟩ :=
    (first.after frameU apart notOther).execute notOwn here run
  have same : v = w := by
    refine ext_get? ?_ ?_ (by omega)
    · intro id
      by_cases mine : own id
      · rw [frameV.memory id (apart id mine), sameW.memory id mine]
      · rw [frameW.memory id mine]
        by_cases theirs : other id
        · rw [sameV.memory id theirs]
        · rw [frameV.memory id theirs, frameT.memory id mine, frameU.memory id theirs]
    · intro id
      by_cases mine : own id
      · rw [frameV.values id (apart id mine), sameW.values id (.inl mine)]
      · rw [frameW.values id mine]
        by_cases theirs : other id
        · rw [sameV.values id (.inl theirs)]
        · rw [frameV.values id theirs, frameT.values id mine, frameU.values id theirs]
  subst same
  refine ⟨v, runV, runW, frameT, frameU, ?_, sameV.memory, ?_⟩
  · intro id mine
    exact frameV.memory id (apart id mine)
  · intro id mine theirs
    rw [frameV.memory id theirs, frameT.memory id mine]

end Machine
end Shader
