import Mathlib.Data.List.Forall2
import Shader.Machine.Run
import Shader.Table.Lemmas

/-!
Executing straight-line code: what each instruction does to the machine, and that a function runs
exactly when the instructions up to the end of its body do.
-/

namespace Shader

theorem bind_eq_ok {ε α β : Type} {x : Except ε α} {f : α → Except ε β} {b : β} :
    x >>= f = .ok b ↔ ∃ a, x = .ok a ∧ f a = .ok b := by
  cases x <;> simp [bind, Except.bind]

theorem bind_eq_error {ε α β : Type} {x : Except ε α} {f : α → Except ε β} {e : ε} :
    x >>= f = .error e ↔ x = .error e ∨ ∃ a, x = .ok a ∧ f a = .error e := by
  cases x <;> simp [bind, Except.bind]

theorem bind_congr_of_ok {ε α β : Type} {x : Except ε α} {f g : α → Except ε β}
    (same : ∀ a, x = .ok a → f a = g a) : x >>= f = x >>= g := by
  cases x with
  | error e => rfl
  | ok a => exact same a rfl

theorem mapM_eq_ok {ε α β : Type} {f : α → Except ε β} {xs : List α} {ys : List β} :
    xs.mapM f = .ok ys ↔ List.Forall₂ (fun x y => f x = .ok y) xs ys := by
  induction xs generalizing ys with
  | nil => cases ys <;> simp [pure, Except.pure]
  | cons x xs ih =>
    rw [List.mapM_cons, bind_eq_ok]
    constructor
    · rintro ⟨y, first, rest⟩
      obtain ⟨zs, others, same⟩ := bind_eq_ok.1 rest
      cases same
      exact .cons first (ih.1 others)
    · intro all
      cases all with
      | cons first others => exact ⟨_, first, bind_eq_ok.2 ⟨_, ih.2 others, rfl⟩⟩

theorem mapM_congr {ε α β : Type} {f g : α → Except ε β} {xs : List α}
    (same : ∀ x ∈ xs, f x = g x) : xs.mapM f = xs.mapM g := by
  induction xs with
  | nil => rfl
  | cons x xs ih =>
    rw [List.mapM_cons, List.mapM_cons, same x List.mem_cons_self,
      ih fun x member => same x (List.mem_cons_of_mem _ member)]

theorem split_first {α : Type} (p : α → Bool) (as : List α) : ∃ before after,
    as = before ++ after ∧ (∀ a ∈ before, p a = false) ∧
      (after = [] ∨ ∃ a later, after = a :: later ∧ p a = true) := by
  induction as with
  | nil => exact ⟨[], [], rfl, by simp, .inl rfl⟩
  | cons a as ih =>
    cases here : p a with
    | true => exact ⟨[], a :: as, rfl, by simp, .inr ⟨a, as, rfl, here⟩⟩
    | false =>
      obtain ⟨before, after, rfl, silent, stop⟩ := ih
      refine ⟨a :: before, after, rfl, ?_, stop⟩
      exact List.forall_mem_cons.2 ⟨here, silent⟩

section Pairs
variable {α β : Type} {R : α → β → Prop} {as : List α} {bs : List β}

theorem forall₂_getElem? (all : List.Forall₂ R as bs) {n : Nat} {a : α} (there : as[n]? = some a) :
    ∃ b, bs[n]? = some b ∧ R a b := by
  induction all generalizing n with
  | nil => cases there
  | @cons x y as bs related _ ih =>
    cases n with
    | zero =>
      cases there
      exact ⟨y, rfl, related⟩
    | succ n => exact ih there

theorem forall₂_getElem?_right (all : List.Forall₂ R as bs) {n : Nat} {b : β}
    (there : bs[n]? = some b) : ∃ a, as[n]? = some a ∧ R a b := forall₂_getElem? all.flip there

theorem exists_of_mem_forall₂ (all : List.Forall₂ R as bs) : ∀ b ∈ bs, ∃ a, R a b := by
  intro b member
  obtain ⟨n, there⟩ := List.getElem?_of_mem member
  obtain ⟨a, -, related⟩ := forall₂_getElem?_right all there
  exact ⟨a, related⟩

theorem exists_forall₂ (each : ∀ a ∈ as, ∃ b, R a b) : ∃ bs, List.Forall₂ R as bs := by
  induction as with
  | nil => exact ⟨[], .nil⟩
  | cons a as ih =>
    obtain ⟨b, first⟩ := each a List.mem_cons_self
    obtain ⟨bs, rest⟩ := ih fun other member => each other (List.mem_cons_of_mem a member)
    exact ⟨b :: bs, .cons first rest⟩

theorem forall₂_concat {a : α} {b : β} (all : List.Forall₂ R as bs) (last : R a b) :
    List.Forall₂ R (as ++ [a]) (bs ++ [b]) := List.rel_append all (.cons last .nil)

end Pairs

namespace Instruction

theorem bodyOf?_append {entry : ResultId} {code rest : List Instruction}
    (found : bodyOf? entry code = some rest) (more : List Instruction) :
    bodyOf? entry (code ++ more) = some (rest ++ more) := by
  induction code with
  | nil => cases found
  | cons i code ih =>
    unfold bodyOf? at found
    rw [List.cons_append]
    unfold bodyOf?
    split at found
    · rename_i head
      cases found
      rw [if_pos head]
    · rename_i other
      rw [if_neg other]
      exact ih found

theorem bodyOf?_suffix {entry : ResultId} {code rest : List Instruction}
    (found : bodyOf? entry code = some rest) : rest <:+ code := by
  induction code with
  | nil => cases found
  | cons i code ih =>
    unfold bodyOf? at found
    split at found
    · cases found
      exact List.suffix_cons i _
    · exact (ih found).trans (List.suffix_cons i code)

theorem body_unique {is js rest rest' : List Instruction} {stop stop' : Instruction}
    (silent : ∀ i ∈ is, i.endsCall = false) (silent' : ∀ j ∈ js, j.endsCall = false)
    (stops : stop.endsCall) (stops' : stop'.endsCall)
    (same : is ++ stop :: rest = js ++ stop' :: rest') : is = js := by
  have cut : ∀ {is rest : List Instruction} {stop : Instruction},
      (∀ i ∈ is, i.endsCall = false) → stop.endsCall →
      (is ++ stop :: rest).takeWhile (fun i => !i.endsCall) = is := by
    intro is rest stop silent stops
    rw [List.takeWhile_append_of_pos (by simpa using silent)]
    simp [stops]
  rw [← cut silent stops, same, cut silent' stops']

theorem requireRef_eq_ok {i : Instruction} {position : Nat} {id : ResultId} :
    i.requireRef position = .ok id ↔ i.refAt? position = some id := by
  unfold requireRef
  cases i.refAt? position <;> simp

def define (i : Instruction) (contents : Contents) : Except ExecError Effect :=
  match i.result with
  | some id => .ok (.define id contents)
  | none => .error (.missingOperand i.opcode 0)

theorem define_eq_ok {i : Instruction} {c : Contents} {e : Effect} :
    i.define c = .ok e ↔ ∃ id, i.result = some id ∧ e = .define id c := by
  unfold define
  cases i.result <;> simp [eq_comm]

end Instruction

/-! Cells in nested contents. -/

namespace Contents
variable {c c' d x : Contents} {index : UInt32} {path : List UInt32}

theorem part_eq_ok : c.part index = .ok d ↔
    ∃ parts, c = .composite parts ∧ parts[index.toNat]? = some d := by
  constructor
  · intro found
    unfold part at found
    split at found
    · rename_i parts
      split at found
      · rename_i here
        cases found
        exact ⟨parts, rfl, here⟩
      · cases found
    · cases found
  · rintro ⟨parts, rfl, here⟩
    simp [part, here]

theorem setPart_part (found : c.part index = .ok d) : c.setPart index d = c := by
  obtain ⟨parts, rfl, here⟩ := part_eq_ok.1 found
  obtain ⟨within, rfl⟩ := List.getElem?_eq_some_iff.1 here
  simp [setPart]

theorem write_cons (c x : Contents) (index : UInt32) (path : List UInt32) :
    c.write (index :: path) x = (do
      let part ← c.part index
      let changed ← part.write path x
      return c.setPart index changed) := by
  unfold write
  rw [assign, onPart]
  cases c.part index with
  | error e => rfl
  | ok part => cases here : assign path x part <;> simp [here, bind, Except.bind, pure, Except.pure]

theorem write_cons_eq_ok : c.write (index :: path) x = .ok c' ↔
    ∃ old new, c.part index = .ok old ∧ old.write path x = .ok new ∧ c' = c.setPart index new := by
  rw [write_cons, bind_eq_ok]
  constructor
  · rintro ⟨old, found, rest⟩
    obtain ⟨new, written, same⟩ := bind_eq_ok.1 rest
    exact ⟨old, new, found, written, (Except.ok.inj same).symm⟩
  · rintro ⟨old, new, found, written, rfl⟩
    exact ⟨old, found, bind_eq_ok.2 ⟨new, written, rfl⟩⟩

/-- An assignment that fails has changed nothing: the walk puts back every part that it took. -/
theorem assign_eq (c x : Contents) (path : List UInt32) :
    assign path x c = match c.write path x with
      | .ok changed => .ok () changed
      | .error e => .error e c := by
  induction path generalizing c with
  | nil => rfl
  | cons index path ih =>
    rw [write_cons, assign, onPart]
    cases found : c.part index with
    | error e => rfl
    | ok part =>
      simp only [ih part, bind, Except.bind]
      cases part.write path x with
      | ok changed => rfl
      | error e => exact congrArg (EStateM.Result.error e) (setPart_part found)

end Contents

namespace Machine

/-- What an instruction amounts to, worked out in full before anything changes. -/
def effect (s : Machine) (i : Instruction) : Except ExecError Effect := do
  match i.opcode with
  | .opLabel => return .nothing
  | .opLoad =>
    let (var, path) ← s.cell (← i.requireRef 0)
    i.define (← (← s.contents var).read path)
  | .opStore =>
    let (var, path) ← s.cell (← i.requireRef 0)
    let object ← s.value (← i.requireRef 1)
    return .store var (← (← s.contents var).write path object)
  | .opAccessChain =>
    let (var, path) ← s.cell (← i.requireRef 0)
    i.define (.address var (path ++ (← s.indices i.opcode 1 (i.operands.drop 1))))
  | .opCompositeInsert =>
    let object ← s.value (← i.requireRef 0)
    let composite ← s.value (← i.requireRef 1)
    i.define (← composite.write ((i.operands.drop 2).filterMap Operand.literal?) object)
  | .opVectorShuffle =>
    let first ← s.parts (← i.requireRef 0)
    let second ← s.parts (← i.requireRef 1)
    i.define (.composite (← (i.operands.drop 2).mapM (select i.opcode (first ++ second))))
  | opcode => throw (.unsupportedInstruction opcode)

theorem contents_eq_ok {s : Machine} {id : ResultId} {c : Contents} :
    s.contents id = .ok c ↔ s.memory.get? id = some c := by
  unfold contents
  cases s.memory.get? id <;> simp

theorem apply_store_self {s : Machine} {var : ResultId} {c : Contents}
    (known : s.contents var = .ok c) : s.apply (.store var c) = s := by
  have same : s.memory.insert var c = s.memory := by
    refine Table.ext_get? fun id => ?_
    by_cases here : id = var
    · rw [here, Table.get?_insert_self, contents_eq_ok.1 known]
    · exact Table.get?_insert_of_ne _ _ here
  rw [apply, same]

def step (s : Machine) (i : Instruction) : Except ExecError Machine := do
  return { s.apply (← s.effect i) with executed := s.executed + 1 }

def execute (s : Machine) (is : List Instruction) : Except ExecError Machine := is.foldlM step s

theorem execute_append (s : Machine) (is js : List Instruction) :
    s.execute (is ++ js) = s.execute is >>= fun t => t.execute js := List.foldlM_append

theorem step_eq_ok {s t : Machine} {i : Instruction} :
    s.step i = .ok t ↔
      ∃ e, s.effect i = .ok e ∧ t = { s.apply e with executed := s.executed + 1 } := by
  unfold step
  rw [bind_eq_ok]
  constructor
  · rintro ⟨e, effect, same⟩
    exact ⟨e, effect, (Except.ok.inj same).symm⟩
  · rintro ⟨e, effect, rfl⟩
    exact ⟨e, effect, rfl⟩

theorem step_eq_error {s : Machine} {i : Instruction} {e : ExecError} :
    s.step i = .error e ↔ s.effect i = .error e := by
  unfold step
  cases s.effect i <;> simp [bind, Except.bind, pure, Except.pure]

theorem execute_eq_error {s : Machine} {is : List Instruction} {e : ExecError}
    (fails : s.execute is = .error e) : ∃ done i rest u, is = done ++ i :: rest ∧
      s.execute done = .ok u ∧ u.effect i = .error e := by
  induction is generalizing s with
  | nil => cases fails
  | cons i is ih =>
    rcases bind_eq_error.1 fails with here | ⟨u, first, later⟩
    · exact ⟨[], i, is, s, rfl, rfl, step_eq_error.1 here⟩
    · obtain ⟨done, j, rest, v, rfl, run, failed⟩ := ih later
      exact ⟨i :: done, j, rest, v, rfl, bind_eq_ok.2 ⟨u, first, run⟩, failed⟩

theorem execute_executed {s t : Machine} {is : List Instruction} (run : s.execute is = .ok t) :
    t.executed = s.executed + is.length := by
  induction is generalizing s with
  | nil =>
    cases run
    rfl
  | cons i is ih =>
    obtain ⟨u, first, rest⟩ := bind_eq_ok.1 run
    obtain ⟨e, -, rfl⟩ := step_eq_ok.1 first
    rw [ih rest, List.length_cons, Nat.add_assoc, Nat.add_comm 1]

def defining (s : Machine) (id : ResultId) (c : Contents) : Machine :=
  { s with values := s.values.insert id c, executed := s.executed + 1 }

def storing (s : Machine) (var : ResultId) (c : Contents) : Machine :=
  { s with memory := s.memory.insert var c, executed := s.executed + 1 }

section Instructions
variable {s : Machine} {id type p : ResultId} {var : ResultId} {path : List UInt32}

theorem value_of_get {c : Contents} (known : s.values.get? id = some c) : s.value id = .ok c := by
  simp [value, known]

theorem contents_of_get {c : Contents} (known : s.memory.get? id = some c) :
    s.contents id = .ok c := by
  simp [contents, known]

theorem step_load {c cell : Contents} (place : s.cell p = .ok (var, path))
    (known : s.memory.get? var = some c) (read : c.read path = .ok cell) :
    s.step ⟨.opLoad, some id, some type, [.ref p]⟩ = .ok (s.defining id cell) := by
  refine step_eq_ok.2 ⟨.define id cell, ?_, rfl⟩
  simp only [effect, Instruction.requireRef, Instruction.refAt?]
  refine bind_eq_ok.2 ⟨p, rfl, bind_eq_ok.2 ⟨(var, path), place, ?_⟩⟩
  refine bind_eq_ok.2 ⟨c, contents_of_get known, bind_eq_ok.2 ⟨cell, read, rfl⟩⟩

theorem step_store {object : ResultId} {c x changed : Contents}
    (place : s.cell p = .ok (var, path)) (stored : s.values.get? object = some x)
    (known : s.memory.get? var = some c) (written : c.write path x = .ok changed) :
    s.step ⟨.opStore, none, none, [.ref p, .ref object]⟩ = .ok (s.storing var changed) := by
  refine step_eq_ok.2 ⟨.store var changed, ?_, rfl⟩
  simp only [effect, Instruction.requireRef, Instruction.refAt?]
  refine bind_eq_ok.2 ⟨p, rfl, bind_eq_ok.2 ⟨(var, path), place, ?_⟩⟩
  refine bind_eq_ok.2 ⟨object, rfl, bind_eq_ok.2 ⟨x, value_of_get stored, ?_⟩⟩
  exact bind_eq_ok.2 ⟨c, contents_of_get known, bind_eq_ok.2 ⟨changed, written, rfl⟩⟩

theorem step_accessChain {ids : List ResultId} {indices : List UInt32}
    (place : s.cell p = .ok (var, path))
    (found : s.indices .opAccessChain 1 (ids.map .ref) = .ok indices) :
    s.step ⟨.opAccessChain, some id, some type, .ref p :: ids.map .ref⟩ =
      .ok (s.defining id (.address var (path ++ indices))) := by
  refine step_eq_ok.2 ⟨.define id (.address var (path ++ indices)), ?_, rfl⟩
  simp only [effect, Instruction.requireRef, Instruction.refAt?]
  refine bind_eq_ok.2 ⟨p, rfl, bind_eq_ok.2 ⟨(var, path), place, ?_⟩⟩
  exact bind_eq_ok.2 ⟨indices, found, rfl⟩

theorem step_compositeInsert {object composite : ResultId} {x c changed : Contents}
    {indices : List UInt32} (inserted : s.values.get? object = some x)
    (known : s.values.get? composite = some c) (written : c.write indices x = .ok changed) :
    s.step ⟨.opCompositeInsert, some id, some type,
      .ref object :: .ref composite :: indices.map .literal⟩ = .ok (s.defining id changed) := by
  refine step_eq_ok.2 ⟨.define id changed, ?_, rfl⟩
  simp only [effect, Instruction.requireRef, Instruction.refAt?]
  refine bind_eq_ok.2 ⟨object, rfl, bind_eq_ok.2 ⟨x, value_of_get inserted, ?_⟩⟩
  refine bind_eq_ok.2 ⟨composite, rfl, bind_eq_ok.2 ⟨c, value_of_get known, ?_⟩⟩
  have literals : (indices.map Operand.literal).filterMap Operand.literal? = indices := by
    simp [List.filterMap_map, Function.comp_def, Operand.literal?]
  refine bind_eq_ok.2 ⟨changed, ?_, rfl⟩
  simpa [literals] using written

theorem step_vectorShuffle {first second : ResultId} {as bs chosen : List Contents}
    {selectors : List UInt32} (one : s.values.get? first = some (.composite as))
    (two : s.values.get? second = some (.composite bs))
    (lanes : List.Forall₂ (fun k c => (as ++ bs)[k.toNat]? = some c) selectors chosen) :
    s.step ⟨.opVectorShuffle, some id, some type,
      .ref first :: .ref second :: selectors.map .literal⟩ =
        .ok (s.defining id (.composite chosen)) := by
  refine step_eq_ok.2 ⟨.define id (.composite chosen), ?_, rfl⟩
  simp only [effect, Instruction.requireRef, Instruction.refAt?]
  have parts : ∀ {q cs}, s.values.get? q = some (.composite cs) → s.parts q = .ok cs := by
    intro q cs known
    exact bind_eq_ok.2 ⟨.composite cs, value_of_get known, rfl⟩
  refine bind_eq_ok.2 ⟨first, rfl, bind_eq_ok.2 ⟨as, parts one, ?_⟩⟩
  refine bind_eq_ok.2 ⟨second, rfl, bind_eq_ok.2 ⟨bs, parts two, ?_⟩⟩
  refine bind_eq_ok.2 ⟨chosen, mapM_eq_ok.2 ?_, rfl⟩
  change List.Forall₂ _ (selectors.map Operand.literal) chosen
  rw [List.forall₂_map_left_iff]
  refine lanes.imp fun k c lane => ?_
  simp [select, Operand.literal?, lane]

end Instructions

section Inversion
variable {s : Machine} {i : Instruction} {e : Effect}

theorem value_eq_ok {id : ResultId} {c : Contents} :
    s.value id = .ok c ↔ s.values.get? id = some c := by
  unfold value
  cases s.values.get? id <;> simp

theorem parts_eq_ok {id : ResultId} {parts : List Contents} :
    s.parts id = .ok parts ↔ s.values.get? id = some (.composite parts) := by
  unfold Machine.parts
  rw [bind_eq_ok]
  constructor
  · rintro ⟨c, known, same⟩
    cases c with
    | composite lanes =>
      cases same
      exact value_eq_ok.1 known
    | _ => cases same
  · intro known
    exact ⟨_, value_eq_ok.2 known, rfl⟩

/-- What an instruction that succeeds does, and what it finds for that. -/
inductive Does (s : Machine) (i : Instruction) : Effect → Prop where
  | label (is : i.opcode = .opLabel) : Does s i .nothing
  | load {p var id : ResultId} {path : List UInt32} {c cell : Contents} (is : i.opcode = .opLoad)
      (pointer : i.refAt? 0 = some p) (place : s.cell p = .ok (var, path))
      (known : s.memory.get? var = some c) (read : c.read path = .ok cell)
      (result : i.result = some id) : Does s i (.define id cell)
  | store {p q var : ResultId} {path : List UInt32} {x c changed : Contents}
      (is : i.opcode = .opStore) (pointer : i.refAt? 0 = some p)
      (place : s.cell p = .ok (var, path)) (object : i.refAt? 1 = some q)
      (stored : s.values.get? q = some x) (known : s.memory.get? var = some c)
      (written : c.write path x = .ok changed) : Does s i (.store var changed)
  | accessChain {p var id : ResultId} {path indices : List UInt32} (is : i.opcode = .opAccessChain)
      (pointer : i.refAt? 0 = some p) (place : s.cell p = .ok (var, path))
      (found : s.indices .opAccessChain 1 (i.operands.drop 1) = .ok indices)
      (result : i.result = some id) : Does s i (.define id (.address var (path ++ indices)))
  | compositeInsert {p q id : ResultId} {x c changed : Contents}
      (is : i.opcode = .opCompositeInsert) (object : i.refAt? 0 = some p)
      (inserted : s.values.get? p = some x) (composite : i.refAt? 1 = some q)
      (known : s.values.get? q = some c)
      (written : c.write ((i.operands.drop 2).filterMap Operand.literal?) x = .ok changed)
      (result : i.result = some id) : Does s i (.define id changed)
  | vectorShuffle {p q id : ResultId} {as bs chosen : List Contents}
      (is : i.opcode = .opVectorShuffle) (first : i.refAt? 0 = some p)
      (one : s.values.get? p = some (.composite as)) (second : i.refAt? 1 = some q)
      (two : s.values.get? q = some (.composite bs))
      (selected : (i.operands.drop 2).mapM (select .opVectorShuffle (as ++ bs)) = .ok chosen)
      (result : i.result = some id) : Does s i (.define id (.composite chosen))

theorem does_of_effect (found : s.effect i = .ok e) : s.Does i e := by
  unfold effect at found
  split at found
  · rename_i is
    cases found
    exact .label is
  · rename_i is
    obtain ⟨p, pointer, found⟩ := bind_eq_ok.1 found
    obtain ⟨⟨var, path⟩, place, found⟩ := bind_eq_ok.1 found
    obtain ⟨c, known, found⟩ := bind_eq_ok.1 found
    obtain ⟨cell, read, found⟩ := bind_eq_ok.1 found
    obtain ⟨id, result, rfl⟩ := Instruction.define_eq_ok.1 found
    exact .load is (Instruction.requireRef_eq_ok.1 pointer) place (contents_eq_ok.1 known) read result
  · rename_i is
    obtain ⟨p, pointer, found⟩ := bind_eq_ok.1 found
    obtain ⟨⟨var, path⟩, place, found⟩ := bind_eq_ok.1 found
    obtain ⟨q, object, found⟩ := bind_eq_ok.1 found
    obtain ⟨x, stored, found⟩ := bind_eq_ok.1 found
    obtain ⟨c, known, found⟩ := bind_eq_ok.1 found
    obtain ⟨changed, written, found⟩ := bind_eq_ok.1 found
    cases found
    exact .store is (Instruction.requireRef_eq_ok.1 pointer) place
      (Instruction.requireRef_eq_ok.1 object) (value_eq_ok.1 stored) (contents_eq_ok.1 known) written
  · rename_i is
    obtain ⟨p, pointer, found⟩ := bind_eq_ok.1 found
    obtain ⟨⟨var, path⟩, place, found⟩ := bind_eq_ok.1 found
    obtain ⟨indices, walked, found⟩ := bind_eq_ok.1 found
    obtain ⟨id, result, rfl⟩ := Instruction.define_eq_ok.1 found
    exact .accessChain is (Instruction.requireRef_eq_ok.1 pointer) place (is ▸ walked) result
  · rename_i is
    obtain ⟨p, object, found⟩ := bind_eq_ok.1 found
    obtain ⟨x, inserted, found⟩ := bind_eq_ok.1 found
    obtain ⟨q, composite, found⟩ := bind_eq_ok.1 found
    obtain ⟨c, known, found⟩ := bind_eq_ok.1 found
    obtain ⟨changed, written, found⟩ := bind_eq_ok.1 found
    obtain ⟨id, result, rfl⟩ := Instruction.define_eq_ok.1 found
    exact .compositeInsert is (Instruction.requireRef_eq_ok.1 object) (value_eq_ok.1 inserted)
      (Instruction.requireRef_eq_ok.1 composite) (value_eq_ok.1 known) written result
  · rename_i is
    obtain ⟨p, first, found⟩ := bind_eq_ok.1 found
    obtain ⟨as, one, found⟩ := bind_eq_ok.1 found
    obtain ⟨q, second, found⟩ := bind_eq_ok.1 found
    obtain ⟨bs, two, found⟩ := bind_eq_ok.1 found
    obtain ⟨chosen, selected, found⟩ := bind_eq_ok.1 found
    obtain ⟨id, result, rfl⟩ := Instruction.define_eq_ok.1 found
    exact .vectorShuffle is (Instruction.requireRef_eq_ok.1 first) (parts_eq_ok.1 one)
      (Instruction.requireRef_eq_ok.1 second) (parts_eq_ok.1 two) (is ▸ selected) result
  · cases found

end Inversion
end Machine

theorem Machine.effect_executed (s : Machine) (n : Nat) (i : Instruction) :
    ({ s with executed := n } : Machine).effect i = s.effect i := by
  have indices : ∀ (opcode : Opcode) (position : Nat) (operands : List Operand),
      ({ s with executed := n } : Machine).indices opcode position operands =
        s.indices opcode position operands := by
    intro opcode position operands
    induction operands generalizing position with
    | nil => rfl
    | cons operand rest ih =>
      unfold Machine.indices
      rw [ih (position + 1)]
      rfl
  unfold effect
  cases i.opcode with
  | opAccessChain =>
    simp only [indices]
    rfl
  | _ => rfl

namespace Exec
variable {entry : ResultId} {s t : Machine} {i : Instruction} {is rest : List Instruction}
  {e : ExecError}

def carryOut (found : Except ExecError Effect) : Exec Unit := fun s =>
  match found with
  | .ok e => .ok () (s.apply e)
  | .error e => .error e s

/-- What is looked up may be looked up before, since that changes nothing. -/
theorem ask_bind_eq {α : Type} {look : Machine → Except ExecError α} {f : α → Exec Unit}
    {g : α → Except ExecError Effect} (same : ∀ a, f a s = carryOut (g a) s) :
    (ask look >>= f) s = carryOut (look s >>= g) s := by
  change EStateM.bind (ask look) f s = _
  unfold EStateM.bind ask
  cases look s with
  | error e => rfl
  | ok a => exact same a

theorem define_eq (i : Instruction) (c : Contents) (s : Machine) :
    define i c s = carryOut (i.define c) s := by
  unfold Instruction.define
  change EStateM.bind (ask fun _ => i.requireResult) _ s = _
  unfold EStateM.bind ask Instruction.requireResult
  cases i.result <;> rfl

theorem onVariable_assign (var : ResultId) (path : List UInt32) (x : Contents) (s : Machine) :
    onVariable var (Contents.assign path x) s = carryOut (do
      let c ← s.contents var
      return .store var (← c.write path x)) s := by
  unfold onVariable
  cases found : s.contents var with
  | error e => rfl
  | ok c =>
    simp only [Contents.assign_eq]
    cases written : c.write path x with
    | ok changed => simp [written, carryOut, bind, Except.bind, pure, Except.pure]
    | error e =>
      -- The variable was put back with what it held.
      simp [written, carryOut, bind, Except.bind, Machine.apply_store_self found]

/-- Working in place comes to the same as working out the effect first. -/
theorem act_eq (i : Instruction) (s : Machine) : act i s = carryOut (s.effect i) s := by
  unfold act Machine.effect
  cases i.opcode with
  | opLoad =>
    refine ask_bind_eq fun pointer => ask_bind_eq fun place => ?_
    exact ask_bind_eq fun contents => ask_bind_eq fun cell => define_eq i cell s
  | opStore =>
    refine ask_bind_eq fun pointer => ask_bind_eq fun place => ?_
    exact ask_bind_eq fun id => ask_bind_eq fun object => onVariable_assign _ _ object s
  | opAccessChain =>
    refine ask_bind_eq fun base => ask_bind_eq fun place => ?_
    exact ask_bind_eq fun indices => define_eq i _ s
  | opCompositeInsert =>
    refine ask_bind_eq fun id => ask_bind_eq fun object => ?_
    refine ask_bind_eq fun id => ask_bind_eq fun composite => ?_
    exact ask_bind_eq fun changed => define_eq i changed s
  | opVectorShuffle =>
    refine ask_bind_eq fun id => ask_bind_eq fun first => ?_
    refine ask_bind_eq fun id => ask_bind_eq fun second => ?_
    exact ask_bind_eq fun lanes => define_eq i _ s
  | _ => rfl

theorem step_eq (i : Instruction) (s : Machine) :
    step i s = carryOut (s.effect i) { s with executed := s.executed + 1 } := by
  rw [← s.effect_executed (s.executed + 1) i]
  exact act_eq i _

theorem step_of_ok (run : s.step i = .ok t) :
    step i s = .ok () t := by
  obtain ⟨e, effect, rfl⟩ := Machine.step_eq_ok.1 run
  rw [step_eq, effect]
  cases e <;> rfl

theorem ok_of_step (run : step i s = .ok () t) :
    s.step i = .ok t := by
  rw [step_eq] at run
  cases effect : s.effect i with
  | error e =>
    rw [effect] at run
    cases run
  | ok e =>
    rw [effect] at run
    refine Machine.step_eq_ok.2 ⟨e, effect, ?_⟩
    cases run
    cases e <;> rfl

theorem bind_eq_ok {x y : Exec Unit} :
    (x >>= fun _ => y) s = .ok () t ↔ ∃ u, x s = .ok () u ∧ y u = .ok () t := by
  change EStateM.bind x (fun _ => y) s = _ ↔ _
  unfold EStateM.bind
  cases x s <;> simp

theorem bind_of_ok {x y : Exec Unit} (run : x s = .ok () t) : (x >>= fun _ => y) s = y t := by
  change EStateM.bind x (fun _ => y) s = _
  unfold EStateM.bind
  rw [run]

theorem step_eq_error : step i s = .error e t ↔
    s.effect i = .error e ∧ t = { s with executed := s.executed + 1 } := by
  rw [step_eq]
  cases s.effect i <;> simp [carryOut, eq_comm]

theorem bind_eq_error {x y : Exec Unit} : (x >>= fun _ => y) s = .error e t ↔
    x s = .error e t ∨ ∃ u, x s = .ok () u ∧ y u = .error e t := by
  change EStateM.bind x (fun _ => y) s = _ ↔ _
  unfold EStateM.bind
  cases x s <;> simp

def steps (is : List Instruction) : Exec Unit := is.forM step

theorem steps_cons (i : Instruction) (is : List Instruction) :
    steps (i :: is) = (do step i; steps is) := rfl

theorem steps_eq_ok : steps is s = .ok () t ↔ s.execute is = .ok t := by
  induction is generalizing s with
  | nil =>
    change EStateM.Result.ok () s = _ ↔ Except.ok s = _
    simp
  | cons i is ih =>
    rw [steps_cons, bind_eq_ok]
    constructor
    · rintro ⟨u, first, others⟩
      exact Shader.bind_eq_ok.2 ⟨u, ok_of_step first, ih.1 others⟩
    · intro run
      obtain ⟨u, first, others⟩ := Shader.bind_eq_ok.1 run
      exact ⟨u, step_of_ok first, ih.2 others⟩

theorem steps_eq_error : steps is s = .error e t ↔
    ∃ done i later u, is = done ++ i :: later ∧ s.execute done = .ok u ∧ step i u = .error e t := by
  induction is generalizing s with
  | nil =>
    constructor
    · intro run
      cases run
    · rintro ⟨done, i, later, u, same, -⟩
      simp at same
  | cons i is ih =>
    rw [steps_cons, bind_eq_error]
    constructor
    · rintro (here | ⟨u, first, others⟩)
      · exact ⟨[], i, is, s, rfl, rfl, here⟩
      · obtain ⟨done, j, later, v, rfl, run, fails⟩ := ih.1 others
        exact ⟨i :: done, j, later, v, rfl, Shader.bind_eq_ok.2 ⟨u, ok_of_step first, run⟩, fails⟩
    · rintro ⟨done, j, later, v, same, run, fails⟩
      cases done with
      | nil =>
        cases same
        cases run
        exact .inl fails
      | cons k done =>
        cases same
        obtain ⟨u, first, others⟩ := Shader.bind_eq_ok.1 run
        exact .inr ⟨u, step_of_ok first, ih.2 ⟨done, j, later, v, rfl, others, fails⟩⟩

theorem body_append (silent : ∀ i ∈ is, i.endsCall = false) :
    body entry (is ++ rest) = (do steps is; body entry rest) := by
  induction is with
  | nil => rfl
  | cons i is ih =>
    have here : i.endsCall = false := silent i List.mem_cons_self
    rw [List.cons_append, body, if_neg (by simp [here]), steps_cons,
      ih fun j member => silent j (List.mem_cons_of_mem _ member)]
    simp only [bind_assoc]

theorem body_of_endsCall (ends : i.endsCall) : body entry (i :: rest) = pure () := if_pos ends

theorem body_eq_ok {code : List Instruction} : body entry code s = .ok () t ↔
    ∃ is stop rest, code = is ++ stop :: rest ∧ (∀ i ∈ is, i.endsCall = false) ∧ stop.endsCall ∧
      s.execute is = .ok t := by
  constructor
  · intro run
    obtain ⟨is, rest, rfl, silent, none | ⟨stop, later, rfl, stops⟩⟩ :=
      split_first Instruction.endsCall code
    · rw [none, body_append silent, bind_eq_ok] at run
      obtain ⟨u, -, clash⟩ := run
      cases clash
    · rw [body_append silent, bind_eq_ok] at run
      obtain ⟨u, ran, last⟩ := run
      rw [body_of_endsCall stops] at last
      cases last
      exact ⟨is, stop, later, rfl, silent, stops, steps_eq_ok.1 ran⟩
  · rintro ⟨is, stop, rest, rfl, silent, stops, run⟩
    rw [body_append silent, bind_eq_ok, body_of_endsCall stops]
    exact ⟨t, steps_eq_ok.2 run, rfl⟩

theorem call_eq_ok {m : Module} :
    call m entry s = .ok () t ↔ ∃ is stop rest,
      Instruction.bodyOf? entry m.code = some (is ++ stop :: rest) ∧
      (∀ i ∈ is, i.endsCall = false) ∧ stop.endsCall ∧ s.execute is = .ok t := by
  unfold call
  cases found : Instruction.bodyOf? entry m.code with
  | none =>
    constructor
    · intro run
      cases run
    · rintro ⟨is, stop, rest, same, -⟩
      cases same
  | some code =>
    simp only [body_eq_ok, Option.some.injEq]

end Exec

theorem Module.run_eq_call {m : Module} {entry : ResultId} {t : Machine} :
    m.run entry = .ok t ↔ ∃ s, Machine.boot m = .ok s ∧ Exec.call m entry s = .ok () t := by
  unfold run
  rw [bind_eq_ok]
  constructor
  · rintro ⟨s, booted, run⟩
    cases called : Exec.call m entry s with
    | error e u =>
      rw [called] at run
      cases run
    | ok _ u =>
      rw [called] at run
      obtain rfl := Except.ok.inj run
      exact ⟨s, booted, called⟩
  · rintro ⟨s, booted, called⟩
    refine ⟨s, booted, ?_⟩
    rw [called]
    rfl

/-- A run succeeds exactly when the machine boots, the function is there, and its body executes up
to its end. -/
theorem Module.run_eq_ok {m : Module} {entry : ResultId} {t : Machine} :
    m.run entry = .ok t ↔ ∃ s is stop rest, Machine.boot m = .ok s ∧
      Instruction.bodyOf? entry m.code = some (is ++ stop :: rest) ∧
      (∀ i ∈ is, i.endsCall = false) ∧ stop.endsCall ∧ s.execute is = .ok t := by
  rw [run_eq_call]
  constructor
  · rintro ⟨s, booted, called⟩
    obtain ⟨is, stop, rest, found⟩ := Exec.call_eq_ok.1 called
    exact ⟨s, is, stop, rest, booted, found⟩
  · rintro ⟨s, is, stop, rest, booted, found⟩
    exact ⟨s, booted, Exec.call_eq_ok.2 ⟨is, stop, rest, found⟩⟩

end Shader
