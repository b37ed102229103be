import Shader.Proofs.Agreement
import Shader.Proofs.Paths

/-!
What one instruction can do to a machine. Main statement: an instruction that fails changes the count
and nothing else, although it works in place; one that succeeds changes the cell or the result that it
names, no operands are asked for behind the last one, and a call that fails leaves what the
instructions before the failing one did.
-/

namespace Shader

/-! Operands behind the first two. -/

/-- Why an instruction is not carried out, if there are faults beside the errors. -/
inductive Fault where
  | refused (e : ExecError)
  /-- Operands are counted from a position behind the last one. -/
  | outOfRange (position available : Nat)
deriving DecidableEq, Repr

abbrev StrictExec := EStateM Fault Machine

namespace Instruction

def upTo {α : Type} (i : Instruction) (position : Nat) (x : α) : StrictExec α :=
  if position ≤ i.operands.length then pure x
  else throw (.outOfRange position i.operands.length)

def operandsFrom (i : Instruction) (position : Nat) : StrictExec (List Operand) :=
  i.upTo position (i.operands.drop position)

def countFrom (i : Instruction) (position : Nat) : StrictExec Nat :=
  i.upTo position (i.operands.length - position)

theorem upTo_two {α : Type} {i : Instruction} {id : ResultId} (there : i.requireRef 1 = .ok id)
    (x : α) : i.upTo 2 x = pure x := by
  obtain ⟨operand, found, -⟩ := Option.bind_eq_some_iff.1 (requireRef_eq_ok.1 there)
  obtain ⟨inside, -⟩ := List.getElem?_eq_some_iff.1 found
  exact if_pos inside

end Instruction

namespace Exec
variable {α β : Type} {s t : Machine}

def faultless (x : Exec α) : StrictExec α := fun s =>
  match x s with
  | .ok a t => .ok a t
  | .error e t => .error (.refused e) t

theorem ask_eq_ok {look : Machine → Except ExecError α} {a : α} :
    ask look s = .ok a t ↔ look s = .ok a ∧ s = t := by
  unfold ask
  cases look s <;> simp

theorem faultless_bind_congr {x : Exec α} {f : α → Exec β} {g : α → StrictExec β}
    (same : ∀ a t, x s = .ok a t → g a t = faultless (f a) t) :
    (faultless x >>= g) s = faultless (x >>= f) s := by
  change EStateM.bind (faultless x) g s = faultless (EStateM.bind x f) s
  unfold EStateM.bind faultless
  beta_reduce
  cases run : x s with
  | error e t => rfl
  | ok a t => exact same a t run

def strictStep (i : Instruction) : StrictExec Unit := do
  match i.opcode with
  | .opCompositeInsert =>
    faultless (modify fun s => { s with executed := s.executed + 1 })
    let id ← faultless (ask fun _ => i.requireRef 0)
    let object ← faultless (ask fun s => s.value id)
    let id ← faultless (ask fun _ => i.requireRef 1)
    let composite ← faultless (ask fun s => s.value id)
    let path := (← i.operandsFrom 2).filterMap Operand.literal?
    let changed ← faultless (ask fun _ => composite.write path object)
    faultless (define i changed)
  | .opVectorShuffle =>
    faultless (modify fun s => { s with executed := s.executed + 1 })
    let id ← faultless (ask fun _ => i.requireRef 0)
    let first ← faultless (ask fun s => s.parts id)
    let id ← faultless (ask fun _ => i.requireRef 1)
    let second ← faultless (ask fun s => s.parts id)
    let _ ← i.countFrom 2
    let selectors ← i.operandsFrom 2
    let lanes ← faultless (ask fun _ =>
      selectors.mapM (Machine.select i.opcode (first ++ second)))
    faultless (define i (.composite lanes))
  | _ => faultless (step i)

/-- Operands are asked for only where they are. -/
theorem strictStep_eq (i : Instruction) (s : Machine) : strictStep i s = faultless (step i) s := by
  unfold strictStep step act
  cases i.opcode with
  | opCompositeInsert =>
    refine faultless_bind_congr fun _ s _ => faultless_bind_congr fun p s _ => ?_
    refine faultless_bind_congr fun object s _ => faultless_bind_congr fun q s there => ?_
    refine faultless_bind_congr fun composite s _ => ?_
    -- An operand was found at position 1, so there are at least two.
    rw [Instruction.operandsFrom, Instruction.upTo_two (ask_eq_ok.1 there).1, pure_bind]
    exact faultless_bind_congr fun changed s _ => rfl
  | opVectorShuffle =>
    refine faultless_bind_congr fun _ s _ => faultless_bind_congr fun p s _ => ?_
    refine faultless_bind_congr fun first s _ => faultless_bind_congr fun q s there => ?_
    refine faultless_bind_congr fun second s _ => ?_
    rw [Instruction.countFrom, Instruction.operandsFrom,
      Instruction.upTo_two (ask_eq_ok.1 there).1, Instruction.upTo_two (ask_eq_ok.1 there).1,
      pure_bind, pure_bind]
    exact faultless_bind_congr fun lanes s _ => rfl
  | _ => rfl

end Exec

/-! What an instruction changes. -/

/-- The second contents hold `x` in the cell at the end of the path, and differ from the first nowhere
else. -/
structure Contents.ReplacedAt (c : Contents) (path : List UInt32) (x c' : Contents) : Prop where
  here : c'.read path = .ok x
  apart : ∀ q, ¬path <+: q → ¬q <+: path → c'.read q = c.read q
  above : ∀ p index q, path = p ++ index :: q → ∃ parts part, c.read p = .ok (.composite parts) ∧
    c'.read p = .ok (.composite (parts.set index.toNat part))

theorem Contents.replacedAt_of_write {c c' x : Contents} {path : List UInt32}
    (written : c.write path x = .ok c') : c.ReplacedAt path x c' where
  here := read_write_self written
  apart _ := read_write_apart written
  above _ _ _ split := read_write_above (split ▸ written)

namespace Machine
variable {s t : Machine} {i : Instruction}

/-- The second machine differs from the first at most in what the instruction names. -/
inductive Amends (s : Machine) (i : Instruction) (t : Machine) : Prop where
  | nothing (is : i.opcode = .opLabel) (memory : t.memory = s.memory) (values : t.values = s.values)
  | cell {p q var : ResultId} {path : List UInt32} {x old new : Contents} (is : i.opcode = .opStore)
      (pointer : i.refAt? 0 = some p) (place : s.cell p = .ok (var, path))
      (object : i.refAt? 1 = some q) (stored : s.values.get? q = some x)
      (before : s.memory.get? var = some old) (after : t.memory.get? var = some new)
      (replaced : old.ReplacedAt path x new)
      (others : ∀ other, other ≠ var → t.memory.get? other = s.memory.get? other)
      (values : t.values = s.values)
  | result {id : ResultId} {c : Contents}
      (is : i.opcode = .opLoad ∨ i.opcode = .opAccessChain ∨ i.opcode = .opCompositeInsert ∨
        i.opcode = .opVectorShuffle)
      (named : i.result = some id) (defined : t.values.get? id = some c)
      (others : ∀ other, other ≠ id → t.values.get? other = s.values.get? other)
      (memory : t.memory = s.memory)

theorem step_amends (run : s.step i = .ok t) : s.Amends i t := by
  obtain ⟨e, found, rfl⟩ := step_eq_ok.1 run
  have defines : ∀ id c, (i.opcode = .opLoad ∨ i.opcode = .opAccessChain ∨
      i.opcode = .opCompositeInsert ∨ i.opcode = .opVectorShuffle) → i.result = some id →
      s.Amends i { s.apply (.define id c) with executed := s.executed + 1 } := by
    intro id c is named
    exact .result is named (Table.get?_insert_self ..)
      (fun other differ => Table.get?_insert_of_ne _ _ differ) rfl
  cases does_of_effect found with
  | label is => exact .nothing is rfl rfl
  | store is pointer place object stored known written =>
    exact .cell is pointer place object stored known (Table.get?_insert_self ..)
      (Contents.replacedAt_of_write written)
      (fun other differ => Table.get?_insert_of_ne _ _ differ) rfl
  | load is pointer place known read named => exact defines _ _ (.inl is) named
  | accessChain is pointer place walked named => exact defines _ _ (.inr (.inl is)) named
  | compositeInsert is object inserted composite known written named =>
    exact defines _ _ (.inr (.inr (.inl is))) named
  | vectorShuffle is first one second two selected named =>
    exact defines _ _ (.inr (.inr (.inr is))) named

end Machine

/-! Calls that fail. -/

namespace Exec
variable {m : Module} {entry : ResultId} {s t : Machine} {e : ExecError}

theorem body_eq_error {code : List Instruction} (fails : body entry code s = .error e t) :
    (∃ done i rest u, code = done ++ i :: rest ∧ s.execute done = .ok u ∧ step i u = .error e t) ∨
      e = .missingFunctionEnd entry ∧ s.execute code = .ok t := by
  obtain ⟨is, rest, rfl, silent, stop⟩ := split_first Instruction.endsCall code
  rw [body_append silent, bind_eq_error] at fails
  rcases fails with early | ⟨u, ran, last⟩
  · obtain ⟨done, i, later, u, rfl, run, failed⟩ := steps_eq_error.1 early
    exact .inl ⟨done, i, later ++ rest, u, by simp, run, failed⟩
  · rcases stop with rfl | ⟨i, later, rfl, ends⟩
    · cases last
      rw [List.append_nil]
      exact .inr ⟨rfl, steps_eq_ok.1 ran⟩
    · rw [body_of_endsCall ends] at last
      cases last

theorem call_eq_error (fails : call m entry s = .error e t) :
    (Instruction.bodyOf? entry m.code = none ∧ t = s) ∨
    (∃ done i rest u, Instruction.bodyOf? entry m.code = some (done ++ i :: rest) ∧
      s.execute done = .ok u ∧ step i u = .error e t) ∨
    ∃ done, Instruction.bodyOf? entry m.code = some done ∧ s.execute done = .ok t := by
  unfold call at fails
  cases found : Instruction.bodyOf? entry m.code with
  | none =>
    rw [found] at fails
    cases fails
    exact .inl ⟨rfl, rfl⟩
  | some code =>
    rw [found] at fails
    rcases body_eq_error fails with ⟨done, i, rest, u, rfl, run, failed⟩ | ⟨-, run⟩
    · exact .inr (.inl ⟨done, i, rest, u, rfl, run, failed⟩)
    · exact .inr (.inr ⟨code, rfl, run⟩)

theorem executed_le_of_call
    (left : call m entry s = .ok () t ∨ ∃ e, call m entry s = .error e t) :
    t.executed ≤ s.executed + m.code.length := by
  have within : ∀ {done rest}, Instruction.bodyOf? entry m.code = some (done ++ rest) →
      done.length + rest.length ≤ m.code.length := by
    intro done rest found
    simpa using (Instruction.bodyOf?_suffix found).length_le
  rcases left with run | ⟨e, fails⟩
  · obtain ⟨is, stop, rest, found, -, -, ran⟩ := call_eq_ok.1 run
    have fits := within found
    rw [Machine.execute_executed ran]
    omega
  · rcases call_eq_error fails with ⟨-, rfl⟩ | ⟨done, i, rest, u, found, ran, failed⟩ |
      ⟨done, found, ran⟩
    · exact Nat.le_add_right _ _
    · obtain ⟨-, rfl⟩ := step_eq_error.1 failed
      have fits := within found
      rw [List.length_cons] at fits
      simp only [Machine.execute_executed ran]
      omega
    · rw [← List.append_nil done] at found
      have fits := within found
      rw [Machine.execute_executed ran]
      omega

/-- No instruction asks for operands behind the last one. One that fails is counted and leaves memory
and values as they are, whatever it had begun; one that succeeds is counted too, and changes only what
it names. So a call that fails leaves what the instructions before the failing one did. A count that
has room for the code stays within 64 bits. -/
theorem step_atomic_framed (s : Machine) (i : Instruction) :
    strictStep i s = faultless (step i) s ∧
    (∀ e t, step i s = .error e t → t = { s with executed := s.executed + 1 }) ∧
    (∀ t, step i s = .ok () t → t.executed = s.executed + 1 ∧ s.Amends i t) ∧
    (∀ m entry e t, call m entry s = .error e t → ∃ done u, s.execute done = .ok u ∧
      t.memory = u.memory ∧ t.values = u.values ∧
      (Instruction.bodyOf? entry m.code = none ∧ done = [] ∨
        (∃ i rest, Instruction.bodyOf? entry m.code = some (done ++ i :: rest) ∧
          step i u = .error e t) ∨
        Instruction.bodyOf? entry m.code = some done)) ∧
    ∀ (m : Module) entry, s.executed + m.code.length < UInt64.size →
      ∀ t, (call m entry s = .ok () t ∨ ∃ e, call m entry s = .error e t) →
        t.executed < UInt64.size := by
  refine ⟨strictStep_eq i s, fun e t fails => (step_eq_error.1 fails).2, ?_, ?_, ?_⟩
  · intro t run
    have stepped := ok_of_step run
    obtain ⟨e, -, rfl⟩ := Machine.step_eq_ok.1 stepped
    exact ⟨rfl, Machine.step_amends stepped⟩
  · intro m entry e t fails
    rcases call_eq_error fails with ⟨unknown, rfl⟩ | ⟨done, j, rest, u, found, run, failed⟩ |
      ⟨done, found, run⟩
    · exact ⟨[], t, rfl, rfl, rfl, .inl ⟨unknown, rfl⟩⟩
    · obtain ⟨-, rfl⟩ := step_eq_error.1 failed
      exact ⟨done, u, run, rfl, rfl, .inr (.inl ⟨j, rest, found, failed⟩)⟩
    · exact ⟨done, t, run, rfl, rfl, .inr (.inr found)⟩
  · intro m entry room t left
    exact Nat.lt_of_le_of_lt (executed_le_of_call left) room

def pointed : Machine where
  memory := Table.insert ∅ ⟨1⟩ (.composite [.scalar 5, .scalar 6])
  values := Table.insert (Table.insert (Table.insert ∅ ⟨2⟩ (.address ⟨1⟩ [1])) ⟨3⟩ (.scalar 7)) ⟨4⟩
    (.address ⟨1⟩ [1, 0])

def laneStore : Instruction := ⟨.opStore, none, none, [.ref ⟨2⟩, .ref ⟨3⟩]⟩

def deepStore : Instruction := ⟨.opStore, none, none, [.ref ⟨4⟩, .ref ⟨3⟩]⟩

def namelessLoad : Module :=
  { code := [⟨.opFunction, some ⟨9⟩, none, []⟩, laneStore, ⟨.opLoad, none, none, [.ref ⟨2⟩]⟩] }

/-- The load fails and the lane stays stored; a store whose path ends below a number leaves the
variable as it was. -/
theorem lane_stored_before_failure :
    (∃ t, step laneStore pointed = .ok () t ∧ t.executed = 1 ∧ pointed.Amends laneStore t) ∧
    (∃ t, step deepStore pointed = .error .notAComposite t ∧ t = { pointed with executed := 1 }) ∧
    ∃ t done u, call namelessLoad ⟨9⟩ pointed = .error (.missingOperand .opLoad 0) t ∧
      pointed.execute done = .ok u ∧ t.memory = u.memory ∧ t.values = u.values ∧
      t.memory.get? ⟨1⟩ = some (.composite [.scalar 5, .scalar 7]) ∧ t.executed < UInt64.size := by
  have stored : ∃ t, step laneStore pointed = .ok () t := ⟨_, rfl⟩
  have refused : ∃ t, step deepStore pointed = .error .notAComposite t := ⟨_, rfl⟩
  have failed : ∃ t, call namelessLoad ⟨9⟩ pointed = .error (.missingOperand .opLoad 0) t ∧
      t.memory.get? ⟨1⟩ = some (.composite [.scalar 5, .scalar 7]) := ⟨_, rfl, rfl⟩
  obtain ⟨-, -, amends, calls, counts⟩ := step_atomic_framed pointed laneStore
  obtain ⟨-, keeps, -⟩ := step_atomic_framed pointed deepStore
  obtain ⟨t, run⟩ := stored
  obtain ⟨v, stopped⟩ := refused
  obtain ⟨u, fails, lane⟩ := failed
  obtain ⟨done, before, ran, memory, values, -⟩ := calls _ _ _ _ fails
  exact ⟨⟨t, run, amends t run⟩, ⟨v, stopped, keeps _ v stopped⟩, u, done, before, fails, ran, memory,
    values, lane, counts namelessLoad ⟨9⟩ (by decide) u (.inr ⟨_, fails⟩)⟩

end Exec
end Shader
