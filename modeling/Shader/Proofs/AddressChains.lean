import Shader.Proofs.Paths

/-!
Cells at the end of long paths. Main statement: reading and replacing cells obey the laws of lenses at
any depth, so a chain of addresses, each taken from the one before, may be replaced by one address that
takes all the indices at once.
-/

namespace Shader

/-! Machines that differ in values that the code does not use. -/

namespace Machine

structure Alike (hidden : List ResultId) (s t : Machine) : Prop where
  memory : t.memory = s.memory
  values : ∀ id, id ∉ hidden → t.values.get? id = s.values.get? id

variable {hidden more : List ResultId} {s t u : Machine}

theorem Alike.refl (hidden : List ResultId) (s : Machine) : s.Alike hidden s := ⟨rfl, fun _ _ => rfl⟩

theorem Alike.trans (first : s.Alike hidden t) (second : t.Alike hidden u) : s.Alike hidden u where
  memory := second.memory.trans first.memory
  values id visible := (second.values id visible).trans (first.values id visible)

theorem Alike.mono (alike : s.Alike hidden t) (subset : hidden ⊆ more) : s.Alike more t where
  memory := alike.memory
  values id visible := alike.values id fun member => visible (subset member)

theorem Alike.apply (alike : s.Alike hidden t) (e : Effect) :
    (s.apply e).Alike hidden (t.apply e) := by
  cases e with
  | nothing => exact alike
  | store var c => exact ⟨congrArg (Table.insert · var c) alike.memory, alike.values⟩
  | define id c =>
    refine ⟨alike.memory, fun other visible => ?_⟩
    change (t.values.insert id c).get? other = (s.values.insert id c).get? other
    rw [Table.get?_insert, Table.get?_insert, alike.values other visible]

section Reading
variable (alike : s.Alike hidden t)
include alike

theorem Alike.value {id : ResultId} (visible : id ∉ hidden) : t.value id = s.value id := by
  unfold Machine.value
  rw [alike.values id visible]

theorem Alike.contents (id : ResultId) : t.contents id = s.contents id := by
  unfold Machine.contents
  rw [alike.memory]

theorem Alike.cell {id : ResultId} (visible : id ∉ hidden) : t.cell id = s.cell id := by
  unfold Machine.cell
  rw [alike.memory, alike.values id visible]

theorem Alike.index {id : ResultId} (visible : id ∉ hidden) : t.index id = s.index id := by
  unfold Machine.index
  rw [alike.value visible]

theorem Alike.indices (opcode : Opcode) (position : Nat) {operands : List Operand}
    (visible : ∀ id ∈ operands.filterMap Operand.ref?, id ∉ hidden) :
    t.indices opcode position operands = s.indices opcode position operands := by
  induction operands generalizing position with
  | nil => rfl
  | cons operand rest ih =>
    unfold Machine.indices
    cases here : operand.ref? with
    | none => rfl
    | some id =>
      rw [List.filterMap_cons_some here, List.forall_mem_cons] at visible
      simp only [alike.index visible.1, ih (position + 1) visible.2]

theorem Alike.parts {id : ResultId} (visible : id ∉ hidden) : t.parts id = s.parts id := by
  unfold Machine.parts
  rw [alike.value visible]

theorem Alike.effect {i : Instruction}
    (visible : ∀ id ∈ i.operands.filterMap Operand.ref?, id ∉ hidden) :
    t.effect i = s.effect i := by
  have operand : ∀ {position id}, i.requireRef position = .ok id → id ∉ hidden := by
    intro position id found
    obtain ⟨operand, there, isRef⟩ :=
      Option.bind_eq_some_iff.1 (Instruction.requireRef_eq_ok.1 found)
    exact visible id (List.mem_filterMap.2 ⟨operand, List.mem_of_getElem? there, isRef⟩)
  have later : ∀ id ∈ (i.operands.drop 1).filterMap Operand.ref?, id ∉ hidden := by
    intro id member
    exact visible id (((List.drop_sublist 1 _).filterMap _).subset member)
  unfold Machine.effect
  cases i.opcode with
  | opLoad =>
    refine bind_congr_of_ok fun p pointer => ?_
    simp only [alike.cell (operand pointer), alike.contents]
  | opStore =>
    refine bind_congr_of_ok fun p pointer => ?_
    rw [alike.cell (operand pointer)]
    refine bind_congr_of_ok fun place _ => bind_congr_of_ok fun q object => ?_
    simp only [alike.value (operand object), alike.contents]
  | opAccessChain =>
    refine bind_congr_of_ok fun p pointer => ?_
    simp only [alike.cell (operand pointer), alike.indices _ _ later]
  | opCompositeInsert =>
    refine bind_congr_of_ok fun p object => ?_
    rw [alike.value (operand object)]
    refine bind_congr_of_ok fun x _ => bind_congr_of_ok fun q composite => ?_
    rw [alike.value (operand composite)]
  | opVectorShuffle =>
    refine bind_congr_of_ok fun p first => ?_
    rw [alike.parts (operand first)]
    refine bind_congr_of_ok fun as _ => bind_congr_of_ok fun q second => ?_
    rw [alike.parts (operand second)]
  | _ => rfl

end Reading
end Machine

namespace Exec
variable {hidden more : List ResultId} {s t : Machine} {entry : ResultId} {i : Instruction}
  {rest : List Instruction}

/-- Both runs succeed or both fail for the same reason, and what they leave is alike. -/
inductive SameOutcome (hidden : List ResultId) :
    EStateM.Result ExecError Machine Unit → EStateM.Result ExecError Machine Unit → Prop where
  | done {s t : Machine} (alike : s.Alike hidden t) : SameOutcome hidden (.ok () s) (.ok () t)
  | failed {s t : Machine} (e : ExecError) (alike : s.Alike hidden t) :
      SameOutcome hidden (.error e s) (.error e t)

theorem SameOutcome.refl (hidden : List ResultId) (r : EStateM.Result ExecError Machine Unit) :
    SameOutcome hidden r r := by
  cases r with
  | ok _ s => exact .done (.refl hidden s)
  | error e s => exact .failed e (.refl hidden s)

theorem SameOutcome.trans {r r' r'' : EStateM.Result ExecError Machine Unit}
    (first : SameOutcome hidden r r') (second : SameOutcome hidden r' r'') :
    SameOutcome hidden r r'' := by
  cases first with
  | done alike =>
    cases second with
    | done alike' => exact .done (alike.trans alike')
  | failed e alike =>
    cases second with
    | failed _ alike' => exact .failed e (alike.trans alike')

theorem SameOutcome.mono {r r' : EStateM.Result ExecError Machine Unit}
    (same : SameOutcome hidden r r') (subset : hidden ⊆ more) : SameOutcome more r r' := by
  cases same with
  | done alike => exact .done (alike.mono subset)
  | failed e alike => exact .failed e (alike.mono subset)

theorem body_cons_of_effect {e : Effect} (goesOn : i.endsCall = false) (effect : s.effect i = .ok e) :
    body entry (i :: rest) s = body entry rest { s.apply e with executed := s.executed + 1 } := by
  rw [body, if_neg (by simp [goesOn])]
  exact bind_of_ok (step_of_ok (Machine.step_eq_ok.2 ⟨e, effect, rfl⟩))

theorem body_cons_of_error {e : ExecError} (goesOn : i.endsCall = false)
    (effect : s.effect i = .error e) :
    body entry (i :: rest) s = .error e { s with executed := s.executed + 1 } := by
  rw [body, if_neg (by simp [goesOn])]
  exact bind_eq_error.2 (.inl (step_eq_error.2 ⟨effect, rfl⟩))

theorem body_alike (alike : s.Alike hidden t)
    (visible : ∀ i ∈ rest, ∀ id ∈ i.operands.filterMap Operand.ref?, id ∉ hidden) :
    SameOutcome hidden (body entry rest s) (body entry rest t) := by
  induction rest generalizing s t with
  | nil => exact .failed _ alike
  | cons i rest ih =>
    obtain ⟨here, later⟩ := List.forall_mem_cons.1 visible
    cases ends : i.endsCall with
    | true =>
      rw [body_of_endsCall ends]
      exact .done alike
    | false =>
      have same : t.effect i = s.effect i := alike.effect here
      cases found : s.effect i with
      | error e =>
        rw [body_cons_of_error ends found, body_cons_of_error ends (same.trans found)]
        exact .failed e ⟨alike.memory, alike.values⟩
      | ok e =>
        rw [body_cons_of_effect ends found, body_cons_of_effect ends (same.trans found)]
        have after := alike.apply e
        exact ih ⟨after.memory, after.values⟩ later

end Exec

/-! Chains of addresses. -/

structure Link where
  result : ResultId
  type : Option ResultId
  indices : List ResultId

namespace Link

def instruction (l : Link) (base : ResultId) : Instruction :=
  ⟨.opAccessChain, some l.result, l.type, .ref base :: l.indices.map .ref⟩

def nested (base : ResultId) : List Link → List Instruction
  | [] => []
  | l :: ls => l.instruction base :: nested l.result ls

def joined (inner : List Link) (last : Link) : Link :=
  { last with indices := (inner ++ [last]).flatMap Link.indices }

/-- The addresses on the way are not called like a variable or like an index that is still to come. -/
structure Proper (s : Machine) (inner : List Link) (last : Link) : Prop where
  noVariable : ∀ l ∈ inner, s.memory.get? l.result = none
  noIndex : (inner ++ [last]).Pairwise fun l k => l.result ∉ k.indices

end Link

namespace Machine
variable {s : Machine} {base : ResultId} {ids more : List ResultId}

def reach (s : Machine) (base : ResultId) (ids : List ResultId) :
    Except ExecError (ResultId × List UInt32) := do
  let (var, path) ← s.cell base
  return (var, path ++ (← ids.mapM s.index))

theorem indices_refs (s : Machine) (opcode : Opcode) (position : Nat) (ids : List ResultId) :
    s.indices opcode position (ids.map .ref) = ids.mapM s.index := by
  induction ids generalizing position with
  | nil => rfl
  | cons id ids ih =>
    rw [List.map_cons, Machine.indices, List.mapM_cons]
    simp only [Operand.ref?, ih (position + 1)]

theorem effect_link (s : Machine) (l : Link) (base : ResultId) :
    s.effect (l.instruction base) =
      s.reach base l.indices >>= fun place => .ok (.define l.result (.address place.1 place.2)) := by
  unfold reach
  simp only [bind_assoc, ← indices_refs s .opAccessChain 1]
  rfl

theorem reach_append (s : Machine) (base : ResultId) (ids more : List ResultId) :
    s.reach base (ids ++ more) = s.reach base ids >>= fun place =>
      more.mapM s.index >>= fun path => .ok (place.1, place.2 ++ path) := by
  unfold reach
  simp only [List.mapM_append, bind_assoc, pure_bind, List.append_assoc]
  rfl

theorem reach_from {l : Link} {var : ResultId} {path : List UInt32}
    (reached : s.reach base l.indices = .ok (var, path))
    (noVariable : s.memory.get? l.result = none) (noIndex : l.result ∉ more) :
    (s.defining l.result (.address var path)).reach l.result more =
      s.reach base (l.indices ++ more) := by
  have here : (s.defining l.result (.address var path)).cell l.result = .ok (var, path) := by
    simp [cell, defining, Table.contains, noVariable]
  have alike : s.Alike [l.result] (s.defining l.result (.address var path)) := by
    refine ⟨rfl, fun id visible => ?_⟩
    exact Table.get?_insert_of_ne _ _ (by simpa using visible)
  have same : more.mapM (s.defining l.result (.address var path)).index = more.mapM s.index := by
    refine mapM_congr fun id member => alike.index ?_
    rw [List.mem_singleton]
    rintro rfl
    exact noIndex member
  rw [reach_append, reached, reach, here, same]
  rfl

end Machine

namespace Link
variable {s : Machine} {base entry : ResultId} {l last : Link} {inner : List Link}
  {rest : List Instruction}

theorem Proper.tail (proper : Proper s (l :: inner) last) (c : Contents) :
    Proper (s.defining l.result c) inner last where
  noVariable k member := proper.noVariable k (List.mem_cons_of_mem l member)
  noIndex := (List.pairwise_cons.1 proper.noIndex).2

theorem Proper.reach_joined (proper : Proper s (l :: inner) last) {var : ResultId}
    {path : List UInt32} (reached : s.reach base l.indices = .ok (var, path)) :
    (s.defining l.result (.address var path)).reach l.result (joined inner last).indices =
      s.reach base (joined (l :: inner) last).indices := by
  refine Machine.reach_from reached (proper.noVariable l List.mem_cons_self) ?_
  intro member
  obtain ⟨k, inside, index⟩ := List.mem_flatMap.1 member
  exact (List.pairwise_cons.1 proper.noIndex).1 k inside index

theorem body_shortened (proper : Proper s (l :: inner) last) {var : ResultId} {path : List UInt32}
    (reached : s.reach base l.indices = .ok (var, path))
    (visible : ∀ i ∈ rest, ∀ id ∈ i.operands.filterMap Operand.ref?, id ≠ l.result) :
    Exec.SameOutcome [l.result]
      (Exec.body entry ((joined inner last).instruction l.result :: rest)
        (s.defining l.result (.address var path)))
      (Exec.body entry ((joined (l :: inner) last).instruction base :: rest) s) := by
  have alike : (s.defining l.result (.address var path)).Alike [l.result] s := by
    refine ⟨rfl, fun id visible => ?_⟩
    exact (Table.get?_insert_of_ne _ _ (by simpa using visible)).symm
  have same := Machine.effect_link (s.defining l.result (.address var path)) (joined inner last)
    l.result
  have whole := Machine.effect_link s (joined (l :: inner) last) base
  rw [proper.reach_joined reached] at same
  cases found : s.reach base (joined (l :: inner) last).indices with
  | error e =>
    rw [found] at same whole
    rw [Exec.body_cons_of_error rfl same, Exec.body_cons_of_error rfl whole]
    exact .failed e ⟨alike.memory, alike.values⟩
  | ok place =>
    rw [found] at same whole
    rw [Exec.body_cons_of_effect rfl same, Exec.body_cons_of_effect rfl whole]
    have after := alike.apply (.define last.result (.address place.1 place.2))
    exact Exec.body_alike ⟨after.memory, after.values⟩ (by simpa using visible)

/-- A chain of addresses may be replaced by one that takes all the indices at once. The induction is on
the addresses on the way; the first of them is left out last. -/
theorem body_joined (proper : Proper s inner last)
    (visible : ∀ i ∈ rest, ∀ id ∈ i.operands.filterMap Operand.ref?, id ∉ inner.map Link.result) :
    Exec.SameOutcome (inner.map Link.result)
      (Exec.body entry (nested base (inner ++ [last]) ++ rest) s)
      (Exec.body entry ((joined inner last).instruction base :: rest) s) := by
  induction inner generalizing s base with
  | nil =>
    have alone : joined [] last = last := by simp [joined]
    rw [alone]
    exact .refl _ _
  | cons l inner ih =>
    have first := Machine.effect_link s l base
    cases reached : s.reach base l.indices with
    | error e =>
      rw [reached] at first
      have whole := Machine.effect_link s (joined (l :: inner) last) base
      have indices : (joined (l :: inner) last).indices = l.indices ++ (joined inner last).indices :=
        rfl
      rw [indices, Machine.reach_append, reached] at whole
      rw [List.cons_append, nested, List.cons_append, Exec.body_cons_of_error rfl first,
        Exec.body_cons_of_error rfl whole]
      exact .refl _ _
    | ok place =>
      rw [reached] at first
      rw [List.cons_append, nested, List.cons_append, Exec.body_cons_of_effect rfl first]
      refine .trans (.mono (ih (proper.tail _) ?_) (List.subset_cons_self _ _))
        (.mono (body_shortened proper reached ?_) (by simp))
      · intro i member id operand inside
        exact visible i member id operand (List.mem_cons_of_mem _ inside)
      · intro i member id operand same
        exact visible i member id operand (same ▸ List.mem_cons_self)

end Link

/-- Reading along a path goes on where reading along its first part ends. A cell can be replaced exactly
if it can be read, and both fail for the same reason. The cell replaced holds the new contents, cells
apart from it hold what they held, composites on the way keep their lengths, replacing a cell by what
it holds changes nothing, and of two replacements the later one counts. So code behind a chain of
addresses, a load or a store through the last of them say, has the same outcome if that address is
taken from the start of the chain by all the indices at once. -/
theorem cells_obey_lens_laws :
    (∀ (c x : Contents) (p q : List UInt32),
      c.read (p ++ q) = (c.read p >>= fun d => d.read q) ∧
      ((∃ c', c.write p x = .ok c') ↔ ∃ d, c.read p = .ok d) ∧
      (∀ e, c.write p x = .error e ↔ c.read p = .error e) ∧
      (∀ d, c.read p = .ok d → c.write p d = .ok c) ∧
      ∀ c', c.write p x = .ok c' →
        c'.read (p ++ q) = x.read q ∧
        (¬p <+: q → ¬q <+: p → c'.read q = c.read q) ∧
        (∀ above index below, p = above ++ index :: below → ∃ parts parts',
          c.read above = .ok (.composite parts) ∧ c'.read above = .ok (.composite parts') ∧
          parts'.length = parts.length) ∧
        ∀ y, c'.write p y = c.write p y) ∧
    ∀ (s : Machine) (entry base : ResultId) (inner : List Link) (last : Link)
      (rest : List Instruction), Link.Proper s inner last →
      (∀ i ∈ rest, ∀ id ∈ i.operands.filterMap Operand.ref?, id ∉ inner.map Link.result) →
      Exec.SameOutcome (inner.map Link.result)
        (Exec.body entry (Link.nested base (inner ++ [last]) ++ rest) s)
        (Exec.body entry ((Link.joined inner last).instruction base :: rest) s) := by
  refine ⟨?_, fun s entry base inner last rest => Link.body_joined⟩
  intro c x p q
  refine ⟨c.read_append p q, c.exists_write_iff x p, fun e => Contents.write_eq_error,
    fun d => Contents.write_read_self, ?_⟩
  intro c' written
  refine ⟨Contents.read_write_below written q, Contents.read_write_apart written, ?_,
    Contents.write_write written⟩
  rintro above index below rfl
  obtain ⟨parts, part, before, after⟩ := Contents.read_write_above written
  exact ⟨parts, parts.set index.toNat part, before, after, List.length_set⟩

def pairAndNumber : Machine where
  memory := Table.insert ∅ ⟨1⟩ (.composite [.composite [.scalar 5, .scalar 6], .scalar 7])
  values := Table.insert (Table.insert (Table.insert ∅ ⟨2⟩ (.scalar 0)) ⟨3⟩ (.scalar 1)) ⟨4⟩
    (.scalar 9)

def storeAndLoad : List Instruction :=
  [⟨.opStore, none, none, [.ref ⟨11⟩, .ref ⟨4⟩]⟩, ⟨.opLoad, some ⟨12⟩, none, [.ref ⟨11⟩]⟩,
    ⟨.opReturn, none, none, []⟩]

/-- The second lane of the pair is replaced, whether it is reached in two steps or in one. -/
theorem lane_reached_in_two_steps : (∃ c',
    (Contents.composite [.composite [.scalar 5, .scalar 6], .scalar 7]).write [0, 1] (.scalar 9) =
      .ok c' ∧ c'.read [0, 1] = .ok (.scalar 9) ∧ c'.read [1] = .ok (.scalar 7)) ∧
    (∃ t, Exec.body ⟨20⟩ (Link.nested ⟨1⟩ [⟨⟨10⟩, none, [⟨2⟩]⟩, ⟨⟨11⟩, none, [⟨3⟩]⟩] ++ storeAndLoad)
        pairAndNumber = .ok () t ∧ t.values.get? ⟨12⟩ = some (.scalar 9)) ∧
    Exec.SameOutcome [⟨10⟩]
      (Exec.body ⟨20⟩ (Link.nested ⟨1⟩ [⟨⟨10⟩, none, [⟨2⟩]⟩, ⟨⟨11⟩, none, [⟨3⟩]⟩] ++ storeAndLoad)
        pairAndNumber)
      (Exec.body ⟨20⟩ (Link.instruction ⟨⟨11⟩, none, [⟨2⟩, ⟨3⟩]⟩ ⟨1⟩ :: storeAndLoad)
        pairAndNumber) := by
  obtain ⟨laws, chains⟩ := cells_obey_lens_laws
  obtain ⟨-, written, -, -, lane⟩ :=
    laws (.composite [.composite [.scalar 5, .scalar 6], .scalar 7]) (.scalar 9) [0, 1] []
  obtain ⟨c', replaced⟩ := written.2 ⟨.scalar 6, rfl⟩
  obtain ⟨-, -, -, -, other⟩ :=
    laws (.composite [.composite [.scalar 5, .scalar 6], .scalar 7]) (.scalar 9) [0, 1] [1]
  have proper : Link.Proper pairAndNumber [⟨⟨10⟩, none, [⟨2⟩]⟩] ⟨⟨11⟩, none, [⟨3⟩]⟩ := by
    refine ⟨?_, by decide⟩
    intro l member
    rw [List.mem_singleton] at member
    subst member
    rfl
  exact ⟨⟨c', replaced, (lane c' replaced).1, (other c' replaced).2.1 (by decide) (by decide)⟩,
    ⟨_, rfl, rfl⟩,
    chains pairAndNumber ⟨20⟩ ⟨1⟩ [⟨⟨10⟩, none, [⟨2⟩]⟩] ⟨⟨11⟩, none, [⟨3⟩]⟩ storeAndLoad proper
      (by decide)⟩

end Shader
