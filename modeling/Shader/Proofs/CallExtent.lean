import Shader.Proofs.Execution

/-!
How far a call reaches. What belongs to a function are the instructions behind its head, up to the
first that returns, closes the function or opens another one. Main statement: a call carries out these
in order and no others, whether or not functions are closed and their ids differ, and what it answers
tells how far it came.
-/

namespace Shader

theorem drop_of_getElem? {α : Type} {as : List α} {n : Nat} {a : α} (here : as[n]? = some a) :
    as.drop n = a :: as.drop (n + 1) := by
  obtain ⟨inside, rfl⟩ := List.getElem?_eq_some_iff.1 here
  exact List.drop_eq_getElem_cons inside

namespace Instruction
variable {entry : ResultId} {code : List Instruction} {first last : Nat}

def heads (entry : ResultId) (i : Instruction) : Bool :=
  i.opcode = .opFunction ∧ i.result = some entry

def bounds (i : Instruction) : Bool :=
  i.opcode = .opReturn ∨ i.opcode = .opFunctionEnd ∨ i.opcode = .opFunction

/-- The first function with this id is opened at the first position and stops at the last one, which
may be the end of the code. -/
structure Extent (entry : ResultId) (code : List Instruction) (first last : Nat) : Prop where
  head : ∃ i, code[first]? = some i ∧ i.heads entry
  earliest : ∀ k < first, ∀ i, code[k]? = some i → i.heads entry = false
  order : first < last
  within : last ≤ code.length
  inner : ∀ k, first < k → k < last → ∀ i, code[k]? = some i → i.bounds = false
  stop : ∀ i, code[last]? = some i → i.bounds

def between (code : List Instruction) (first last : Nat) : List Instruction :=
  (code.take last).drop (first + 1)

theorem endsCall_iff {i : Instruction} :
    i.endsCall ↔ i.opcode = .opReturn ∨ i.opcode = .opFunctionEnd := by
  simp only [endsCall, decide_eq_true_eq]
  exact or_comm

theorem bounds_iff {i : Instruction} : i.bounds ↔ i.endsCall ∨ i.opcode = .opFunction := by
  rw [endsCall_iff, or_assoc]
  simp only [bounds, decide_eq_true_eq]

theorem endsCall_of_bounds {i : Instruction} (silent : i.bounds = false) : i.endsCall = false := by
  rw [← Bool.not_eq_true, bounds_iff, not_or, Bool.not_eq_true] at silent
  exact silent.1

theorem bodyOf?_cons (i : Instruction) (rest : List Instruction) :
    bodyOf? entry (i :: rest) = if i.heads entry then some rest else bodyOf? entry rest := by
  simp [bodyOf?, heads]

theorem bodyOf?_eq_none : bodyOf? entry code = none ↔ ∀ i ∈ code, i.heads entry = false := by
  induction code with
  | nil => simp [bodyOf?]
  | cons i code ih =>
    rw [bodyOf?_cons, List.forall_mem_cons, ← ih]
    cases i.heads entry <;> simp

theorem bodyOf?_append_of_absent {before rest : List Instruction}
    (absent : ∀ i ∈ before, i.heads entry = false) :
    bodyOf? entry (before ++ rest) = bodyOf? entry rest := by
  induction before with
  | nil => rfl
  | cons i before ih =>
    obtain ⟨here, later⟩ := List.forall_mem_cons.1 absent
    rw [List.cons_append, bodyOf?_cons, if_neg (by simp [here]), ih later]

namespace Extent

theorem bodyOf?_eq (extent : Extent entry code first last) :
    bodyOf? entry code = some (code.drop (first + 1)) := by
  obtain ⟨i, here, opens⟩ := extent.head
  obtain ⟨inside, rfl⟩ := List.getElem?_eq_some_iff.1 here
  have absent : ∀ i ∈ code.take first, i.heads entry = false := by
    intro i member
    obtain ⟨k, found⟩ := List.getElem?_of_mem member
    rw [List.getElem?_take, Option.ite_none_right_eq_some] at found
    exact extent.earliest k found.1 i found.2
  calc bodyOf? entry code
      = bodyOf? entry (code.take first ++ code.drop first) := by rw [List.take_append_drop]
    _ = bodyOf? entry (code[first] :: code.drop (first + 1)) := by
        rw [bodyOf?_append_of_absent absent, List.drop_eq_getElem_cons inside]
    _ = some (code.drop (first + 1)) := by rw [bodyOf?_cons, if_pos opens]

theorem drop_eq (extent : Extent entry code first last) :
    code.drop (first + 1) = between code first last ++ code.drop last := by
  have order := extent.order
  have within := extent.within
  have long : first + 1 ≤ (code.take last).length := by
    rw [List.length_take]
    omega
  rw [between, ← List.drop_append_of_le_length long, List.take_append_drop]

theorem length_between (extent : Extent entry code first last) :
    (between code first last).length = last - first - 1 := by
  have within := extent.within
  simp only [between, List.length_drop, List.length_take]
  omega

theorem silent (extent : Extent entry code first last) :
    ∀ i ∈ between code first last, i.endsCall = false := by
  intro i member
  obtain ⟨k, found⟩ := List.getElem?_of_mem member
  rw [between, List.getElem?_drop, List.getElem?_take, Option.ite_none_right_eq_some] at found
  exact endsCall_of_bounds (extent.inner _ (by omega) found.1 i found.2)

end Extent

theorem exists_extent (there : ∃ i ∈ code, i.heads entry) :
    ∃ first last, Extent entry code first last := by
  obtain ⟨before, rest, rfl, absent, opened⟩ := split_first (heads entry) code
  obtain ⟨head, later, rfl, opens⟩ : ∃ i later, rest = i :: later ∧ i.heads entry := by
    rcases opened with rfl | found
    · obtain ⟨i, member, opens⟩ := there
      rw [List.append_nil] at member
      rw [absent i member] at opens
      cases opens
    · exact found
  obtain ⟨inside, after, rfl, inner, stop⟩ := split_first bounds later
  -- Positions behind the head, counted from there.
  have behind : ∀ k, (before ++ head :: (inside ++ after))[before.length + 1 + k]? =
      (inside ++ after)[k]? := by
    intro k
    rw [List.getElem?_append_right (by omega)]
    have index : before.length + 1 + k - before.length = k + 1 := by omega
    rw [index, List.getElem?_cons_succ]
  refine ⟨before.length, before.length + 1 + inside.length, ?_, ?_, ?_, ?_, ?_, ?_⟩
  · exact ⟨head, by simp, opens⟩
  · intro k early i found
    rw [List.getElem?_append_left early] at found
    exact absent i (List.mem_of_getElem? found)
  · omega
  · simp only [List.length_append, List.length_cons]
    omega
  · intro k past early i found
    obtain ⟨n, rfl⟩ := Nat.exists_eq_add_of_lt past
    have index : before.length + n + 1 = before.length + 1 + n := by omega
    rw [index, behind, List.getElem?_append_left (by omega)] at found
    exact inner i (List.mem_of_getElem? found)
  · intro i found
    rw [behind, List.getElem?_append_right (Nat.le_refl _), Nat.sub_self] at found
    rcases stop with rfl | ⟨last, more, rfl, bounded⟩
    · cases found
    · cases found
      exact bounded

end Instruction

namespace Exec
open Instruction (Extent between)
variable {m : Module} {entry : ResultId} {first last : Nat} {s t : Machine}

theorem call_of_absent (absent : ∀ i ∈ m.code, i.heads entry = false) (s : Machine) :
    call m entry s = .error (.unknownFunction entry) s := by
  unfold call
  rw [Instruction.bodyOf?_eq_none.2 absent]
  rfl

theorem call_eq_steps (extent : Extent entry m.code first last) :
    call m entry = (do steps (between m.code first last); body entry (m.code.drop last)) := by
  unfold call
  rw [extent.bodyOf?_eq, extent.drop_eq]
  exact body_append extent.silent

theorem step_opFunction {i : Instruction} (is : i.opcode = .opFunction) (s : Machine) :
    step i s =
      .error (.unsupportedInstruction .opFunction) { s with executed := s.executed + 1 } := by
  refine step_eq_error.2 ⟨?_, rfl⟩
  unfold Machine.effect
  rw [is]
  rfl

section Stopping
variable {code : List Instruction} {i : Instruction}

theorem body_drop_of_endsCall (here : code[last]? = some i) (ends : i.endsCall) :
    body entry (code.drop last) s = .ok () s := by
  rw [drop_of_getElem? here, body_of_endsCall ends]
  rfl

theorem body_drop_of_opFunction (here : code[last]? = some i) (opens : i.opcode = .opFunction) :
    body entry (code.drop last) s =
      .error (.unsupportedInstruction .opFunction) { s with executed := s.executed + 1 } := by
  have silent : i.endsCall = false := by simp [Instruction.endsCall, opens]
  rw [drop_of_getElem? here, body, if_neg (by simp [silent]), bind_eq_error]
  exact .inl (step_opFunction opens s)

theorem body_drop_of_none (ended : code[last]? = none) :
    body entry (code.drop last) s = .error (.missingFunctionEnd entry) s := by
  rw [List.drop_eq_nil_of_le (List.getElem?_eq_none_iff.1 ended)]
  rfl

end Stopping

theorem call_of_execute (extent : Extent entry m.code first last)
    (ran : s.execute (between m.code first last) = .ok t) :
    call m entry s = body entry (m.code.drop last) t := by
  rw [call_eq_steps extent]
  exact bind_of_ok (steps_eq_ok.2 ran)

theorem call_of_run (extent : Extent entry m.code first last)
    (ran : s.execute (between m.code first last) = .ok t) :
    (∃ i, m.code[last]? = some i ∧ i.endsCall ∧ call m entry s = .ok () t) ∨
    (∃ i, m.code[last]? = some i ∧ i.opcode = .opFunction ∧
      call m entry s =
        .error (.unsupportedInstruction .opFunction) { t with executed := t.executed + 1 }) ∨
    (m.code[last]? = none ∧ call m entry s = .error (.missingFunctionEnd entry) t) := by
  rw [call_of_execute extent ran]
  cases here : m.code[last]? with
  | none => exact .inr (.inr ⟨rfl, body_drop_of_none here⟩)
  | some i =>
    rcases Instruction.bounds_iff.1 (extent.stop i here) with ends | opens
    · exact .inl ⟨i, rfl, ends, body_drop_of_endsCall here ends⟩
    · exact .inr (.inl ⟨i, rfl, opens, body_drop_of_opFunction here opens⟩)

theorem call_of_fault {e : ExecError} (extent : Extent entry m.code first last)
    (fails : s.execute (between m.code first last) = .error e) : ∃ done i rest u,
      between m.code first last = done ++ i :: rest ∧ s.execute done = .ok u ∧ u.effect i = .error e ∧
      call m entry s = .error e { u with executed := s.executed + done.length + 1 } := by
  obtain ⟨done, i, rest, u, inside, ran, failed⟩ := Machine.execute_eq_error fails
  refine ⟨done, i, rest, u, inside, ran, failed, ?_⟩
  rw [call_eq_steps extent, bind_eq_error, ← Machine.execute_executed ran]
  exact .inl (steps_eq_error.2 ⟨done, i, rest, u, inside, ran, step_eq_error.2 ⟨failed, rfl⟩⟩)

/-- An instruction that fails has been counted, so a function that is there is never answered with the
machine as it was and its id as unknown. -/
theorem call_ne_unknownFunction (extent : Extent entry m.code first last) :
    call m entry s ≠ .error (.unknownFunction entry) s := by
  intro unknown
  cases ran : s.execute (between m.code first last) with
  | ok t =>
    rcases call_of_run extent ran with ⟨i, -, -, called⟩ | ⟨i, -, -, called⟩ | ⟨-, called⟩ <;>
      rw [unknown] at called <;> cases called
  | error e =>
    obtain ⟨done, i, rest, u, -, -, -, called⟩ := call_of_fault extent ran
    rw [unknown] at called
    injection called with _ machine
    have counted := congrArg Machine.executed machine
    simp only at counted
    omega

theorem call_eq_ok_of_extent (extent : Extent entry m.code first last) :
    call m entry s = .ok () t ↔ s.execute (between m.code first last) = .ok t ∧
      ∃ i, m.code[last]? = some i ∧ i.endsCall := by
  constructor
  · intro succeeds
    cases ran : s.execute (between m.code first last) with
    | ok u =>
      rcases call_of_run extent ran with ⟨i, here, ends, called⟩ | ⟨i, -, -, called⟩ | ⟨-, called⟩
      · rw [succeeds] at called
        cases called
        exact ⟨rfl, i, here, ends⟩
      · rw [succeeds] at called
        cases called
      · rw [succeeds] at called
        cases called
    | error e =>
      obtain ⟨done, i, rest, u, -, -, -, called⟩ := call_of_fault extent ran
      rw [succeeds] at called
      cases called
  · rintro ⟨ran, i, here, ends⟩
    rw [call_of_execute extent ran, body_drop_of_endsCall here ends]

/-- Unless the function is not there, a call carries out what belongs to it, in order and up to the
first instruction that fails. It succeeds exactly if nothing fails and the function returns or is
closed; running into another function and running out of code are errors of their own. -/
theorem call_stays_in_function (m : Module) (entry : ResultId) (s : Machine) :
    (call m entry s = .error (.unknownFunction entry) s ↔ ∀ i ∈ m.code, i.heads entry = false) ∧
    ((∃ i ∈ m.code, i.heads entry) → ∃ first last, Extent entry m.code first last) ∧
    ∀ first last, Extent entry m.code first last →
      (∀ t, call m entry s = .ok () t ↔ s.execute (between m.code first last) = .ok t ∧
        ∃ i, m.code[last]? = some i ∧ (i.opcode = .opReturn ∨ i.opcode = .opFunctionEnd)) ∧
      (∀ t, s.execute (between m.code first last) = .ok t →
        t.executed = s.executed + (last - first - 1) ∧
        (∀ i, m.code[last]? = some i → i.opcode = .opFunction →
          call m entry s = .error (.unsupportedInstruction .opFunction)
            { t with executed := s.executed + (last - first) }) ∧
        (m.code[last]? = none → call m entry s = .error (.missingFunctionEnd entry) t)) ∧
      (∀ e, s.execute (between m.code first last) = .error e → ∃ done i rest u,
        between m.code first last = done ++ i :: rest ∧ s.execute done = .ok u ∧
        u.effect i = .error e ∧
        call m entry s = .error e { u with executed := s.executed + done.length + 1 }) := by
  refine ⟨⟨?_, fun absent => call_of_absent absent s⟩, Instruction.exists_extent, ?_⟩
  · intro unknown i member
    cases opens : i.heads entry with
    | false => rfl
    | true =>
      obtain ⟨first, last, extent⟩ := Instruction.exists_extent ⟨i, member, opens⟩
      exact absurd unknown (call_ne_unknownFunction extent)
  · intro first last extent
    refine ⟨fun t => ?_, fun t ran => ?_, fun e fails => call_of_fault extent fails⟩
    · simp only [call_eq_ok_of_extent extent, Instruction.endsCall_iff]
    · have order := extent.order
      have counted := Machine.execute_executed ran
      rw [extent.length_between] at counted
      have total : s.executed + (last - first) = t.executed + 1 := by omega
      refine ⟨counted, fun i here opens => ?_, fun ended => ?_⟩
      · rw [total, call_of_execute extent ran, body_drop_of_opFunction here opens]
      · rw [call_of_execute extent ran, body_drop_of_none ended]

def unclosed : Module :=
  { code := [⟨.opFunction, some ⟨5⟩, none, []⟩, ⟨.opLabel, some ⟨6⟩, none, []⟩,
      ⟨.opFunction, some ⟨5⟩, none, []⟩, ⟨.opReturn, none, none, []⟩] }

/-- The call stops where the second function is opened, and the return behind it does not count. -/
theorem unclosed_runs_into_second :
    Extent ⟨5⟩ unclosed.code 0 2 ∧
    call unclosed ⟨5⟩ {} = .error (.unsupportedInstruction .opFunction) { executed := 2 } ∧
    call unclosed ⟨6⟩ {} = .error (.unknownFunction ⟨6⟩) {} := by
  have extent : Extent ⟨5⟩ unclosed.code 0 2 := by
    refine ⟨⟨_, rfl, rfl⟩, fun k early => ?_, by decide, by decide, fun k after before i found => ?_,
      fun i found => ?_⟩
    · omega
    · obtain rfl : k = 1 := by omega
      cases found
      rfl
    · cases found
      rfl
  have runs : Machine.execute {} (between unclosed.code 0 2) = .ok { executed := 1 } := rfl
  obtain ⟨unknown, -, -⟩ := call_stays_in_function unclosed ⟨6⟩ {}
  obtain ⟨-, -, bounded⟩ := call_stays_in_function unclosed ⟨5⟩ {}
  obtain ⟨-, stops, -⟩ := bounded 0 2 extent
  exact ⟨extent, (stops _ runs).2.1 _ rfl rfl, unknown.2 (by decide)⟩

end Exec
end Shader
