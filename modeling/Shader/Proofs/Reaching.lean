import Shader.Proofs.Scoping

/-!
The machine that the code of an unfinished function leads to. As declarations are added to the
module it knows more and forgets nothing, and instructions appended to the function carry it on.
-/

namespace Shader
open Instruction (results mem_results)

namespace Machine

theorem step_value_frame {s t : Machine} {i : Instruction} (run : s.step i = .ok t) {id : ResultId}
    (untouched : i.result ≠ some id) : t.values.get? id = s.values.get? id := by
  obtain ⟨e, found, rfl⟩ := step_eq_ok.1 run
  rcases effect_cases found with rfl | ⟨var, old, new, rfl, -⟩ | ⟨other, c, rfl, -, result⟩
  · rfl
  · rfl
  · refine Table.get?_insert_of_ne _ _ ?_
    rintro rfl
    exact untouched result

theorem execute_value_frame {s t : Machine} {is : List Instruction} (run : s.execute is = .ok t)
    {id : ResultId} (untouched : id ∉ results is) : t.values.get? id = s.values.get? id := by
  induction is generalizing s with
  | nil =>
    cases run
    rfl
  | cons i is ih =>
    obtain ⟨u, first, rest⟩ := bind_eq_ok.1 run
    rw [Instruction.results_cons, List.mem_append] at untouched
    rw [ih rest fun member => untouched (.inr member)]
    refine step_value_frame first ?_
    intro result
    exact untouched (.inl (by simp [result]))

theorem step_memory_domain {s t : Machine} {i : Instruction} (run : s.step i = .ok t)
    {id : ResultId} {c : Contents} (known : t.memory.get? id = some c) :
    ∃ d, s.memory.get? id = some d := by
  obtain ⟨e, found, rfl⟩ := step_eq_ok.1 run
  rcases effect_cases found with rfl | ⟨var, old, new, rfl, there⟩ | ⟨other, d, rfl, -, -⟩
  · exact ⟨c, known⟩
  · by_cases same : id = var
    · exact ⟨old, same ▸ there⟩
    · refine ⟨c, ?_⟩
      rwa [Machine.apply, Table.get?_insert_of_ne _ _ same] at known
  · exact ⟨c, known⟩

theorem execute_memory_domain {s t : Machine} {is : List Instruction} (run : s.execute is = .ok t)
    {id : ResultId} {c : Contents} (known : t.memory.get? id = some c) :
    ∃ d, s.memory.get? id = some d := by
  induction is generalizing s with
  | nil =>
    cases run
    exact ⟨c, known⟩
  | cons i is ih =>
    obtain ⟨u, first, rest⟩ := bind_eq_ok.1 run
    obtain ⟨d, later⟩ := ih rest
    exact step_memory_domain first later

theorem Agrees.step_beyond {limit : Nat} {s t s' t' : Machine} {i : Instruction}
    (agree : s.Agrees limit t) (run : s.step i = .ok s') (run' : t.step i = .ok t') {id : ResultId}
    (beyond : limit < id.index) : t'.memory.get? id = t.memory.get? id := by
  obtain ⟨e, found, rfl⟩ := step_eq_ok.1 run
  obtain ⟨e', found', rfl⟩ := step_eq_ok.1 run'
  have same : e = e' := by
    have := agree.effect i e found
    rw [found'] at this
    exact (Except.ok.inj this).symm
  subst same
  rcases effect_cases found with rfl | ⟨var, old, new, rfl, there⟩ | ⟨other, d, rfl, -, -⟩
  · rfl
  · refine Table.get?_insert_of_ne _ _ ?_
    rintro rfl
    have := agree.memoryWithin id old there
    omega
  · rfl

theorem Agrees.execute_beyond {limit : Nat} {s t s' t' : Machine} {is : List Instruction}
    (agree : s.Agrees limit t)
    (within : ∀ i ∈ is, i.computes → ∀ id, i.result = some id → id.index ≤ limit)
    (run : s.execute is = .ok s') (run' : t.execute is = .ok t') {id : ResultId}
    (beyond : limit < id.index) : t'.memory.get? id = t.memory.get? id := by
  induction is generalizing s t with
  | nil =>
    cases run'
    rfl
  | cons i is ih =>
    obtain ⟨u, first, rest⟩ := bind_eq_ok.1 run
    obtain ⟨v, first', rest'⟩ := bind_eq_ok.1 run'
    obtain ⟨w, step, next⟩ := agree.step (within i List.mem_cons_self) first
    rw [first'] at step
    cases step
    rw [ih next (fun j member => within j (List.mem_cons_of_mem _ member)) rest rest']
    exact agree.step_beyond first first' beyond

/-- The second machine knows what the first one knows, and takes no value of it for a variable. -/
structure Retains (s t : Machine) : Prop where
  memory : ∀ id c, s.memory.get? id = some c → t.memory.get? id = some c
  values : ∀ id c, s.values.get? id = some c → t.values.get? id = some c
  apart : ∀ id c, s.values.get? id = some c → s.memory.get? id = none → t.memory.get? id = none

theorem Retains.trans {s t u : Machine} (first : s.Retains t) (second : t.Retains u) :
    s.Retains u where
  memory id c known := second.memory id c (first.memory id c known)
  values id c known := second.values id c (first.values id c known)
  apart id c known unknown :=
    second.apart id c (first.values id c known) (first.apart id c known unknown)

theorem Agrees.retains {limit : Nat} {s t : Machine} (agree : s.Agrees limit t) : s.Retains t where
  memory _ _ known := agree.get_memory known
  values _ _ known := agree.get_value known
  apart id c known unknown := by
    rw [agree.memory id (agree.valuesWithin id c known), unknown]

theorem Retains.defining {s : Machine} {id : ResultId} (new : s.values.get? id = none)
    (c : Contents) : s.Retains (s.defining id c) where
  memory _ _ known := known
  values other d known := by
    have differ : other ≠ id := by
      rintro rfl
      rw [new] at known
      cases known
    rw [Machine.defining, Table.get?_insert_of_ne _ _ differ, known]
  apart _ _ _ unknown := unknown

end Machine

namespace Module
open Machine (boot)
variable {m m' : Module} {body : List Instruction} {t : Machine}

/-- Starting the module and executing the code of an unfinished function leads to the machine. -/
structure Reaches (m : Module) (body : List Instruction) (t : Machine) : Prop where
  sound : m.Sound
  run : ∃ s, boot m = .ok s ∧ s.execute body = .ok t
  given : ∀ id ∈ results body, id.index ≤ m.issued
  apart : ∀ id ∈ results body, id ∉ results m.globals

/-- After more declarations the same code leads to a machine that knows more. -/
theorem Reaches.grow (reaches : m.Reaches body t) (sound : m'.Sound) (grown : m.Extends m') :
    ∃ t', m'.Reaches body t' ∧ t.Retains t' ∧ ∀ s, boot m' = .ok s →
      ∀ id, m.issued < id.index → t'.memory.get? id = s.memory.get? id := by
  obtain ⟨s, boots, run⟩ := reaches.run
  obtain ⟨s', boots'⟩ := sound.boots
  have agree := Machine.boot_agrees reaches.sound.coherent grown sound.coherent boots boots'
  have within : ∀ i ∈ body, i.computes → ∀ id, i.result = some id → id.index ≤ m.issued :=
    fun i member _ id result => reaches.given id (mem_results.2 ⟨i, member, result⟩)
  obtain ⟨t', run', final⟩ := agree.execute within run
  refine ⟨t', ⟨sound, ⟨s', boots', run'⟩, ?_, ?_⟩, final.retains, ?_⟩
  · exact fun id member => Nat.le_trans (reaches.given id member) grown.issued
  · exact fun id member => grown.not_mem_results (reaches.given id member) (reaches.apart id member)
  · intro s'' same id beyond
    rw [boots'] at same
    cases same
    exact agree.execute_beyond within run run' beyond

theorem Reaches.append {is : List Instruction} {t' : Machine} (reaches : m.Reaches body t)
    (run : t.execute is = .ok t') (given : ∀ id ∈ results is, id.index ≤ m.issued)
    (apart : ∀ id ∈ results is, id ∉ results m.globals) : m.Reaches (body ++ is) t' := by
  obtain ⟨s, boots, before⟩ := reaches.run
  refine ⟨reaches.sound, ⟨s, boots, ?_⟩, ?_, ?_⟩
  · rw [Machine.execute_append]
    exact bind_eq_ok.2 ⟨t, before, run⟩
  · intro id member
    rw [Instruction.results_append] at member
    rcases List.mem_append.1 member with old | new
    · exact reaches.given id old
    · exact given id new
  · intro id member
    rw [Instruction.results_append] at member
    rcases List.mem_append.1 member with old | new
    · exact reaches.apart id old
    · exact apart id new

theorem Reaches.constant (reaches : m.Reaches body t) {id : ResultId} {d : ConstDecl}
    (known : m.constDecl? id = some d) :
    ∃ s c, boot m = .ok s ∧ s.constant d = .ok c ∧ t.values.get? id = some c := by
  obtain ⟨s, boots, run⟩ := reaches.run
  obtain ⟨c, found, value⟩ := Machine.boot_constant reaches.sound.coherent boots known
  have untouched : id ∉ results body := fun computed => reaches.apart id computed
    (reaches.sound.coherent.mem_results_of_declares (.constant known))
  exact ⟨s, c, boots, value, (Machine.execute_value_frame run untouched).trans found⟩

theorem Reaches.memory_declared (reaches : m.Reaches body t) {id : ResultId} {c : Contents}
    (known : t.memory.get? id = some c) : id ∈ results m.globals := by
  obtain ⟨s, boots, run⟩ := reaches.run
  obtain ⟨d, before⟩ := Machine.execute_memory_domain run known
  obtain ⟨var, declared⟩ := Machine.boot_memory reaches.sound.coherent boots before
  exact reaches.sound.coherent.mem_results_of_declares (.var declared)

theorem Reaches.value_unknown (reaches : m.Reaches body t) {id : ResultId}
    (undeclared : id ∉ results m.globals) (uncomputed : id ∉ results body) :
    t.values.get? id = none := by
  obtain ⟨s, boots, run⟩ := reaches.run
  rw [Machine.execute_value_frame run uncomputed]
  cases known : s.values.get? id with
  | none => rfl
  | some c =>
    obtain ⟨d, declared, -⟩ := Machine.boot_value reaches.sound.coherent boots known
    exact absurd (reaches.sound.coherent.mem_results_of_declares (.constant declared)) undeclared

theorem Reaches.mem_scope_of_variable (reaches : m.Reaches body t) {id : ResultId} {c : Contents}
    (known : t.memory.get? id = some c) : id ∈ m.scope (results body) :=
  List.mem_append_left _ (reaches.memory_declared known)

theorem Reaches.mem_scope_of_value (reaches : m.Reaches body t) {id : ResultId} {c : Contents}
    (known : t.values.get? id = some c) : id ∈ m.scope (results body) := by
  by_contra outside
  have unknown := reaches.value_unknown (fun declared => outside (List.mem_append_left _ declared))
    fun computed => outside (List.mem_append_right _ computed)
  rw [known] at unknown
  cases unknown

theorem Reaches.mem_scope_of_cell (reaches : m.Reaches body t) {id : ResultId}
    {cell : ResultId × List UInt32} (found : t.cell id = .ok cell) : id ∈ m.scope (results body) := by
  unfold Machine.cell Table.contains at found
  cases memory : t.memory.get? id with
  | some c => exact reaches.mem_scope_of_variable memory
  | none =>
    cases value : t.values.get? id with
    | some c => exact reaches.mem_scope_of_value value
    | none =>
      rw [memory, value] at found
      cases found

structure Carries (m : Module) (body is : List Instruction) (m' : Module) (t' : Machine) : Prop where
  emits : Emits (results body) m is m'
  reaches : m'.Reaches (body ++ is) t'

theorem Carries.trans {is js : List Instruction} {m₁ m₂ : Module} {t₁ t₂ : Machine}
    (first : m.Carries body is m₁ t₁) (second : m₁.Carries (body ++ is) js m₂ t₂) :
    m.Carries body (is ++ js) m₂ t₂ where
  emits := first.emits.trans (by
    rw [← Instruction.results_append]
    exact second.emits)
  reaches := by
    rw [← List.append_assoc]
    exact second.reaches

theorem Reaches.carries (reaches : m.Reaches body t) : m.Carries body [] m t :=
  ⟨(Quiet.refl reaches.sound).emits _, by simpa using reaches⟩

theorem Reaches.quiet (reaches : m.Reaches body t) (quiet : m.Quiet m') :
    ∃ t', m.Carries body [] m' t' ∧ t.Retains t' := by
  obtain ⟨t', reached, retains, -⟩ := reaches.grow quiet.sound quiet.extension
  exact ⟨t', ⟨quiet.emits _, by simpa using reached⟩, retains⟩

theorem Reaches.define {i : Instruction} {id : ResultId}
    (reaches : m.Reaches body t) (emits : Emits (results body) m [i] m')
    (result : i.result = some id) {c : Contents}
    (step : ∀ u, m'.Reaches body u → t.Retains u → u.step i = .ok (u.defining id c)) :
    ∃ t', m.Carries body [i] m' t' ∧ t.Retains t' ∧ t'.values.get? id = some c ∧
      t'.memory.get? id = none := by
  obtain ⟨u, grown, retains, -⟩ := reaches.grow emits.sound emits.extension
  have isResult : id ∈ results [i] := mem_results.2 ⟨i, List.mem_singleton_self i, result⟩
  obtain ⟨new, given, apart⟩ := emits.new id isResult
  -- A result is new, so nothing that was known is lost, and it is not taken for a variable.
  have uncomputed : id ∉ results body := by
    intro computed
    have := reaches.given id computed
    omega
  have fresh := grown.value_unknown apart uncomputed
  refine ⟨u.defining id c, ⟨emits, ?_⟩, retains.trans (.defining fresh c),
    Table.get?_insert_self .., ?_⟩
  · refine grown.append (bind_eq_ok.2 ⟨_, step u grown retains, rfl⟩) ?_ ?_
    · exact fun other member => (emits.new other member).2.1
    · exact fun other member => (emits.new other member).2.2
  · change u.memory.get? id = none
    cases known : u.memory.get? id with
    | none => rfl
    | some d => exact absurd (grown.memory_declared known) apart

end Module
end Shader
