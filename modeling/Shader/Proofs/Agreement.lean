import Shader.Proofs.Coherence
import Shader.Proofs.Execution

/-!
Two machines that agree on all ids up to a limit, of which the first knows no others, run the same
code alike as long as it defines no id beyond the limit.
-/

namespace Shader

def Answers {ε α : Type} (x y : Except ε α) : Prop := ∀ a, x = .ok a → y = .ok a

theorem Answers.refl {ε α : Type} (x : Except ε α) : Answers x x := fun _ found => found

theorem Answers.bind {ε α β : Type} {x y : Except ε α} {f g : α → Except ε β}
    (first : Answers x y) (second : ∀ a, Answers (f a) (g a)) :
    Answers (x >>= f) (y >>= g) := by
  intro b found
  obtain ⟨a, one, two⟩ := bind_eq_ok.1 found
  exact bind_eq_ok.2 ⟨a, first a one, second a b two⟩

theorem Answers.mapM {ε α β : Type} {f g : α → Except ε β} (each : ∀ a, Answers (f a) (g a))
    (xs : List α) : Answers (xs.mapM f) (xs.mapM g) := by
  intro ys found
  exact mapM_eq_ok.2 ((mapM_eq_ok.1 found).imp fun a b one => each a b one)

namespace Machine

/-- The second machine has the same entries up to the limit, and the first has no others. -/
structure Agrees (limit : Nat) (s t : Machine) : Prop where
  memory : ∀ id, id.index ≤ limit → t.memory.get? id = s.memory.get? id
  values : ∀ id, id.index ≤ limit → t.values.get? id = s.values.get? id
  memoryWithin : ∀ id c, s.memory.get? id = some c → id.index ≤ limit
  valuesWithin : ∀ id c, s.values.get? id = some c → id.index ≤ limit
  executed : t.executed = s.executed

section Effects
variable {limit : Nat} {s t : Machine} (agree : s.Agrees limit t)
include agree

theorem Agrees.get_memory {id : ResultId} {c : Contents} (known : s.memory.get? id = some c) :
    t.memory.get? id = some c := by
  rw [agree.memory id (agree.memoryWithin id c known), known]

theorem Agrees.get_value {id : ResultId} {c : Contents} (known : s.values.get? id = some c) :
    t.values.get? id = some c := by
  rw [agree.values id (agree.valuesWithin id c known), known]

theorem Agrees.value (id : ResultId) : Answers (s.value id) (t.value id) := by
  intro c found
  unfold Machine.value at found
  split at found
  · rename_i known
    cases found
    exact value_of_get (agree.get_value known)
  · cases found

theorem Agrees.contents (id : ResultId) : Answers (s.contents id) (t.contents id) := by
  intro c found
  unfold Machine.contents at found
  split at found
  · rename_i known
    cases found
    exact contents_of_get (agree.get_memory known)
  · cases found

theorem Agrees.cell (id : ResultId) : Answers (s.cell id) (t.cell id) := by
  intro place found
  unfold Machine.cell Table.contains at found ⊢
  cases inMemory : s.memory.get? id with
  | some c => simpa [inMemory, agree.get_memory inMemory] using found
  | none =>
    cases inValues : s.values.get? id with
    | none => simp [inMemory, inValues] at found
    | some c =>
      have within := agree.valuesWithin id c inValues
      rw [agree.memory id within, agree.values id within]
      exact found

theorem Agrees.indices (opcode : Opcode) (position : Nat) (operands : List Operand) :
    Answers (s.indices opcode position operands) (t.indices opcode position operands) := by
  induction operands generalizing position with
  | nil => exact .refl _
  | cons operand rest ih =>
    unfold Machine.indices
    cases operand.ref? with
    | none => exact .refl _
    | some id =>
      refine .bind (.bind (agree.value id) fun c => .refl _) fun index => ?_
      exact .bind (ih (position + 1)) fun others => .refl _

theorem Agrees.parts (id : ResultId) : Answers (s.parts id) (t.parts id) :=
  .bind (agree.value id) fun _ => .refl _

theorem Agrees.effect (i : Instruction) : Answers (s.effect i) (t.effect i) := by
  unfold Machine.effect
  cases i.opcode with
  | opLoad =>
    refine .bind (.refl _) fun p => .bind (agree.cell p) fun place => ?_
    exact .bind (agree.contents _) fun c => .refl _
  | opStore =>
    refine .bind (.refl _) fun p => .bind (agree.cell p) fun place => ?_
    refine .bind (.refl _) fun q => .bind (agree.value q) fun object => ?_
    exact .bind (agree.contents _) fun c => .refl _
  | opAccessChain =>
    refine .bind (.refl _) fun p => .bind (agree.cell p) fun place => ?_
    exact .bind (agree.indices _ _ _) fun more => .refl _
  | opCompositeInsert =>
    refine .bind (.refl _) fun p => .bind (agree.value p) fun object => ?_
    exact .bind (.refl _) fun q => .bind (agree.value q) fun composite => .refl _
  | opVectorShuffle =>
    refine .bind (.refl _) fun p => .bind (agree.parts p) fun first => ?_
    exact .bind (.refl _) fun q => .bind (agree.parts q) fun second => .refl _
  | _ => exact .refl _

end Effects

/-- An instruction that succeeds does nothing, changes a variable that is there, or defines its own
result. -/
theorem effect_cases {s : Machine} {i : Instruction} {e : Effect} (found : s.effect i = .ok e) :
    e = .nothing ∨ (∃ var old new, e = .store var new ∧ s.memory.get? var = some old) ∨
      (∃ id c, e = .define id c ∧ i.computes ∧ i.result = some id) := by
  have computes : i.opcode = .opLoad ∨ i.opcode = .opAccessChain ∨ i.opcode = .opCompositeInsert ∨
      i.opcode = .opVectorShuffle → i.computes := by
    intro opcode
    simpa [Instruction.computes] using opcode
  cases does_of_effect found with
  | label is => exact .inl rfl
  | store is pointer place object stored known written =>
    exact .inr (.inl ⟨_, _, _, rfl, known⟩)
  | load is pointer place known read result =>
    exact .inr (.inr ⟨_, _, rfl, computes (by simp [is]), result⟩)
  | accessChain is pointer place found result =>
    exact .inr (.inr ⟨_, _, rfl, computes (by simp [is]), result⟩)
  | compositeInsert is object inserted composite known written result =>
    exact .inr (.inr ⟨_, _, rfl, computes (by simp [is]), result⟩)
  | vectorShuffle is first one second two selected result =>
    exact .inr (.inr ⟨_, _, rfl, computes (by simp [is]), result⟩)

theorem Agrees.apply {limit : Nat} {s t : Machine} (agree : s.Agrees limit t) {e : Effect}
    (defines : ∀ id c, e = .define id c → id.index ≤ limit)
    (stores : ∀ var c, e = .store var c → var.index ≤ limit) :
    (s.apply e).Agrees limit (t.apply e) := by
  obtain ⟨memory, values, memoryWithin, valuesWithin, executed⟩ := agree
  cases e with
  | nothing => exact ⟨memory, values, memoryWithin, valuesWithin, executed⟩
  | store var c =>
    refine ⟨?_, values, ?_, valuesWithin, executed⟩
    · intro id within
      simp only [Machine.apply, Table.get?_insert, memory id within]
    · intro id d known
      rw [Machine.apply, Table.get?_insert] at known
      split at known
      · rename_i same
        rw [same]
        exact stores var c rfl
      · exact memoryWithin id d known
  | define key c =>
    refine ⟨memory, ?_, memoryWithin, ?_, executed⟩
    · intro id within
      simp only [Machine.apply, Table.get?_insert, values id within]
    · intro id d known
      rw [Machine.apply, Table.get?_insert] at known
      split at known
      · rename_i same
        rw [same]
        exact defines key c rfl
      · exact valuesWithin id d known

theorem Agrees.step {limit : Nat} {s t s' : Machine} {i : Instruction} (agree : s.Agrees limit t)
    (within : i.computes → ∀ id, i.result = some id → id.index ≤ limit)
    (run : s.step i = .ok s') : ∃ t', t.step i = .ok t' ∧ s'.Agrees limit t' := by
  obtain ⟨e, found, rfl⟩ := step_eq_ok.1 run
  refine ⟨_, step_eq_ok.2 ⟨e, agree.effect i e found, rfl⟩, ?_⟩
  have applied : (s.apply e).Agrees limit (t.apply e) := by
    rcases effect_cases found with rfl | ⟨var, old, new, rfl, known⟩ | ⟨id, c, rfl, computes, result⟩
    · exact agree
    · refine agree.apply nofun ?_
      intro other c same
      cases same
      exact agree.memoryWithin var old known
    · refine agree.apply ?_ nofun
      intro other d same
      cases same
      exact within computes id result
  exact ⟨applied.memory, applied.values, applied.memoryWithin, applied.valuesWithin,
    congrArg (· + 1) agree.executed⟩

theorem Agrees.execute {limit : Nat} {s t s' : Machine} {is : List Instruction}
    (agree : s.Agrees limit t)
    (within : ∀ i ∈ is, i.computes → ∀ id, i.result = some id → id.index ≤ limit)
    (run : s.execute is = .ok s') : ∃ t', t.execute is = .ok t' ∧ s'.Agrees limit t' := by
  induction is generalizing s t with
  | nil =>
    cases run
    exact ⟨t, rfl, agree⟩
  | cons i is ih =>
    obtain ⟨u, first, rest⟩ := bind_eq_ok.1 run
    obtain ⟨v, second, next⟩ := agree.step (within i List.mem_cons_self) first
    obtain ⟨t', last, final⟩ := ih next (fun j member => within j (List.mem_cons_of_mem _ member)) rest
    exact ⟨t', bind_eq_ok.2 ⟨v, second, last⟩, final⟩

end Machine
end Shader
