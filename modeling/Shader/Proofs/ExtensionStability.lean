import Shader.Proofs.Booting
import Shader.Proofs.Building

/-!
What a function computes is settled once it is closed: whatever is built onto the module later, as
long as the machine still boots, the function runs as it did before.
-/

namespace Shader
namespace Module

theorem run_extends {m m' : Module} (co : m.Coherent) (continues : m.Continues m')
    {entry : ResultId} {s t₀ : Machine} (run : m.run entry = .ok s)
    (boots : Machine.boot m' = .ok t₀) :
    ∃ t, m'.run entry = .ok t ∧ s.Agrees m.issued t := by
  obtain ⟨s₀, is, stop, rest, started, found, silent, stops, executed⟩ := run_eq_ok.1 run
  have agree : s₀.Agrees m.issued t₀ :=
    Machine.boot_agrees co continues.extension continues.coherent started boots
  have within : ∀ i ∈ is, i.computes → ∀ id, i.result = some id → id.index ≤ m.issued := by
    intro i member
    have inCode : i ∈ m.code :=
      (Instruction.bodyOf?_suffix found).subset (List.mem_append_left _ member)
    exact co.computed i inCode
  obtain ⟨t, later, final⟩ := agree.execute within executed
  obtain ⟨more, code⟩ := continues.extension.code
  have foundLater : Instruction.bodyOf? entry m'.code = some (is ++ stop :: (rest ++ more)) := by
    rw [← code, Instruction.bodyOf?_append found]
    simp
  exact ⟨t, run_eq_ok.2 ⟨t₀, is, stop, rest ++ more, boots, foundLater, silent, stops, later⟩, final⟩

/-- Nothing that is built later changes what a function of the module computes. -/
theorem run_stable_under_extension {m : Module} (reachable : m.Reachable) (more : List Edit)
    {entry : ResultId} {s t₀ : Machine} (fit : (m.replay more).IdsFit)
    (run : m.run entry = .ok s) (boots : Machine.boot (m.replay more) = .ok t₀) :
    ∃ t, (m.replay more).run entry = .ok t ∧ t.executed = s.executed ∧
      (∀ var d, m.varDecl? var = some d → t.memory.get? var = s.memory.get? var) ∧
      (∀ id, id.word < m.bound → t.values.get? id = s.values.get? id) := by
  have fitBefore : m.IdsFit := fit.of_le (issued_le_replay m more)
  have co : m.Coherent := reachable.coherent fitBefore
  obtain ⟨t, later, agree⟩ := run_extends co (replay_continues co more fit) run boots
  refine ⟨t, later, agree.executed, ?_, ?_⟩
  · intro var d known
    exact agree.memory var (co.given_of_var known)
  · intro id below
    have given : id.index < m.issued + 1 := toNat_bound fitBefore ▸ UInt32.lt_iff_toNat_lt.1 below
    exact agree.values id (Nat.le_of_lt_succ given)

def storeAndLoad : List Edit := [
  .wordConstant 7, .declareType (.pointer ⟨1⟩ .privateStorage),
  .declareVariable ⟨⟨3⟩, .privateStorage⟩, .declareType .void, .declareType (.function ⟨5⟩ []),
  .freshId, .beginFunction ⟨5⟩ ⟨7⟩ ⟨6⟩, .freshId, .label ⟨8⟩, .store ⟨4⟩ ⟨2⟩, .load ⟨1⟩ ⟨4⟩,
  .returnVoid, .endFunction]

def overwriting : List Edit := [
  .wordConstant 9, .declareVariable ⟨⟨3⟩, .privateStorage⟩, .freshId, .beginFunction ⟨5⟩ ⟨12⟩ ⟨6⟩,
  .store ⟨4⟩ ⟨10⟩]

theorem stored_number_survives :
    ∃ s t, (empty.replay storeAndLoad).run ⟨7⟩ = .ok s ∧
      ((empty.replay storeAndLoad).replay overwriting).run ⟨7⟩ = .ok t ∧
      t.executed = s.executed ∧ t.memory.get? ⟨4⟩ = s.memory.get? ⟨4⟩ ∧
      t.values.get? ⟨9⟩ = s.values.get? ⟨9⟩ := by
  obtain ⟨s, run⟩ : ∃ s, (empty.replay storeAndLoad).run ⟨7⟩ = .ok s := ⟨_, rfl⟩
  obtain ⟨t₀, boots⟩ : ∃ t₀, Machine.boot ((empty.replay storeAndLoad).replay overwriting) = .ok t₀ :=
    ⟨_, rfl⟩
  obtain ⟨t, later, executed, memory, values⟩ :=
    run_stable_under_extension ⟨storeAndLoad, rfl⟩ overwriting (by decide +kernel) run boots
  exact ⟨s, t, run, later, executed, memory ⟨4⟩ ⟨⟨3⟩, .privateStorage⟩ rfl, values ⟨9⟩ (by decide)⟩

end Module
end Shader
