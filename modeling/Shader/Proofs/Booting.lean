import Shader.Proofs.Agreement

/-!
The machine at the start of a run: which ids it knows and what they hold, and that declarations
added to a module add to it without changing what was there.
-/

namespace Shader

theorem mem_of_mem_snoc {α : Type} {as : List α} {a b : α} (member : b ∈ as ++ [a])
    (differ : b ≠ a) : b ∈ as := by
  rcases List.mem_append.1 member with old | last
  · exact old
  · exact absurd (List.mem_singleton.1 last) differ

theorem Instruction.ne_of_result {i j : Instruction} {id other : ResultId}
    (one : i.result = some id) (two : j.result = some other) (differ : other ≠ id) : j ≠ i := by
  intro same
  rw [same, one] at two
  exact differ (Option.some.inj two).symm

namespace Module

theorem zeroWithin_extends {m m' : Module} (co : m.Coherent) (grown : m.Extends m') {n n' : Nat}
    (le : n ≤ n') (type : ResultId) : Answers (m.zeroWithin n type) (m'.zeroWithin n' type) := by
  induction n generalizing n' type with
  | zero =>
    intro c found
    cases found
  | succ n ih =>
    obtain ⟨k, rfl⟩ : ∃ k, n' = k + 1 := ⟨n' - 1, by omega⟩
    have deeper : ∀ t, Answers (m.zeroWithin n t) (m'.zeroWithin k t) := ih (by omega)
    unfold zeroWithin
    cases known : m.typeDecl? type with
    | none =>
      intro c found
      cases found
    | some d =>
      rw [grown.typeDecl co known]
      cases d with
      | int width signed => exact .refl _
      | float width => exact .refl _
      | vector component count => exact .bind (deeper component) fun lane => .refl _
      | array element length =>
        cases size : m.constDecl? length with
        | none =>
          intro c found
          simp [size] at found
        | some e =>
          simp only [size, grown.constDecl co size, Option.bind_some]
          cases e.bits? with
          | none => exact .refl _
          | some bits => exact .bind (deeper element) fun zero => .refl _
      | struct members => exact .bind (.mapM deeper members) fun parts => .refl _
      | _ => exact .refl _

theorem zero_extends {m m' : Module} (co : m.Coherent) (grown : m.Extends m') (fit : m'.IdsFit)
    (type : ResultId) : Answers (m.zero type) (m'.zero type) := by
  refine zeroWithin_extends co grown ?_ type
  rw [toNat_bound co.fit, toNat_bound fit]
  exact Nat.succ_le_succ grown.issued

open Instruction (results) in
theorem Coherent.order {m : Module} (co : m.Coherent) {before after : List Instruction}
    {i : Instruction} {id : ResultId} (all : m.globals = before ++ i :: after)
    (result : i.result = some id) :
    (∀ other ∈ results before, other < id) ∧ ∀ other ∈ results after, id < other := by
  have here : results (i :: after) = id :: results after := by simp [results, result]
  have increasing := co.increasing
  rw [all, Instruction.results_append, here, List.pairwise_append] at increasing
  obtain ⟨-, rest, across⟩ := increasing
  exact ⟨fun other early => across other early id List.mem_cons_self, (List.pairwise_cons.1 rest).1⟩

end Module

namespace Machine
open Instruction (results mem_results)

section Declarations
variable {m : Module} {id : ResultId}

theorem declare_type (s : Machine) (d : TypeDecl) : declare m s (d.instruction id) = .ok s := by
  cases d <;> rfl

theorem declare_constant (s : Machine) {d : ConstDecl} (known : m.constDecl? id = some d) :
    declare m s (d.instruction id) = s.constant d >>= fun c => .ok (s.apply (.define id c)) := by
  cases d <;> simp [declare, ConstDecl.instruction, ConstDecl.opcode, known] <;> rfl

theorem declare_variable (s : Machine) {d : VarDecl} {pointee : ResultId} {storage : StorageClass}
    (known : m.varDecl? id = some d)
    (typed : m.typeDecl? d.pointerType = some (.pointer pointee storage)) :
    declare m s (d.instruction id) =
      m.zero pointee >>= fun c => .ok (s.apply (.store id c)) := by
  simp [declare, VarDecl.instruction, known, typed]
  rfl

theorem declare_cases {s s' : Machine} {i : Instruction} (declares : m.Declares id i)
    (run : declare m s i = .ok s') :
    (∃ d : TypeDecl, i = d.instruction id ∧ s' = s) ∨
    (∃ (d : ConstDecl) (c : Contents), i = d.instruction id ∧ m.constDecl? id = some d ∧
      s.constant d = .ok c ∧ s' = s.apply (.define id c)) ∨
    (∃ (d : VarDecl) (pointee : ResultId) (storage : StorageClass) (c : Contents),
      i = d.instruction id ∧ m.varDecl? id = some d ∧
      m.typeDecl? d.pointerType = some (.pointer pointee storage) ∧ m.zero pointee = .ok c ∧
      s' = s.apply (.store id c)) := by
  cases declares with
  | @type d known =>
    rw [declare_type] at run
    exact .inl ⟨d, rfl, (Except.ok.inj run).symm⟩
  | @constant d known =>
    rw [declare_constant s known] at run
    obtain ⟨c, value, same⟩ := bind_eq_ok.1 run
    exact .inr (.inl ⟨d, c, rfl, known, value, (Except.ok.inj same).symm⟩)
  | @var d known =>
    refine .inr (.inr ?_)
    cases typed : m.typeDecl? d.pointerType with
    | none => simp [declare, VarDecl.instruction, known, typed] at run
    | some t =>
      cases t with
      | pointer pointee storage =>
        rw [declare_variable s known typed] at run
        obtain ⟨c, zero, same⟩ := bind_eq_ok.1 run
        exact ⟨d, pointee, storage, c, rfl, known, typed, zero, (Except.ok.inj same).symm⟩
      | _ => simp [declare, VarDecl.instruction, known, typed] at run

end Declarations

/-- What the machine knows once the first declarations of a module are set up. -/
structure Booted (m : Module) (before : List Instruction) (s : Machine) : Prop where
  values : ∀ id d, m.constDecl? id = some d → d.instruction id ∈ before →
    ∃ c, s.values.get? id = some c ∧ s.constant d = .ok c
  valuesOnly : ∀ id c, s.values.get? id = some c →
    ∃ d, m.constDecl? id = some d ∧ d.instruction id ∈ before
  memory : ∀ id d, m.varDecl? id = some d → d.instruction id ∈ before →
    ∃ pointee storage c, m.typeDecl? d.pointerType = some (.pointer pointee storage) ∧
      m.zero pointee = .ok c ∧ s.memory.get? id = some c
  memoryOnly : ∀ id c, s.memory.get? id = some c →
    ∃ d, m.varDecl? id = some d ∧ d.instruction id ∈ before
  executed : s.executed = 0

theorem constant_apply {s : Machine} {id : ResultId} (unknown : s.values.get? id = none)
    (c : Contents) (d : ConstDecl) : Answers (s.constant d) ((s.apply (.define id c)).constant d) := by
  have lookup : ∀ p, Answers (s.value p) ((s.apply (.define id c)).value p) := by
    intro p x found
    by_cases same : p = id
    · simp [value, same, unknown] at found
    · simpa [value, Machine.apply, Table.get?_insert_of_ne _ _ same] using found
  cases d with
  | word type value => exact .refl _
  | float type value => exact .refl _
  | composite type parts => exact .bind (.mapM lookup parts) fun _ => .refl _

section Snoc
variable {m : Module} {before : List Instruction} {s : Machine} {id : ResultId}

theorem Booted.unknown_value (booted : Booted m before s) (new : id ∉ results before) :
    s.values.get? id = none := by
  cases known : s.values.get? id with
  | none => rfl
  | some c =>
    obtain ⟨d, -, member⟩ := booted.valuesOnly id c known
    exact absurd (mem_results.2 ⟨_, member, rfl⟩) new

theorem Booted.snoc_type (booted : Booted m before s) (d : TypeDecl) :
    Booted m (before ++ [d.instruction id]) s where
  values other e known member := by
    refine booted.values other e known (mem_of_mem_snoc member ?_)
    intro same
    cases e <;> cases d <;> cases same
  valuesOnly other c found := by
    obtain ⟨e, known, member⟩ := booted.valuesOnly other c found
    exact ⟨e, known, List.mem_append_left _ member⟩
  memory other e known member := by
    refine booted.memory other e known (mem_of_mem_snoc member ?_)
    intro same
    cases d <;> cases same
  memoryOnly other c found := by
    obtain ⟨e, known, member⟩ := booted.memoryOnly other c found
    exact ⟨e, known, List.mem_append_left _ member⟩
  executed := booted.executed

theorem Booted.snoc_constant (booted : Booted m before s) (new : id ∉ results before)
    {d : ConstDecl} {c : Contents} (known : m.constDecl? id = some d) (value : s.constant d = .ok c) :
    Booted m (before ++ [d.instruction id]) (s.apply (.define id c)) where
  values other e there member := by
    have unknown := booted.unknown_value new
    by_cases same : other = id
    · subst same
      rw [known] at there
      cases there
      exact ⟨c, Table.get?_insert_self .., constant_apply unknown c d c value⟩
    · have old := mem_of_mem_snoc member (Instruction.ne_of_result rfl rfl same)
      obtain ⟨x, found, constant⟩ := booted.values other e there old
      refine ⟨x, ?_, constant_apply unknown c e x constant⟩
      rw [Machine.apply, Table.get?_insert_of_ne _ _ same, found]
  valuesOnly other x found := by
    by_cases same : other = id
    · subst same
      exact ⟨d, known, List.mem_append_right _ (List.mem_singleton_self _)⟩
    · rw [Machine.apply, Table.get?_insert_of_ne _ _ same] at found
      obtain ⟨e, there, member⟩ := booted.valuesOnly other x found
      exact ⟨e, there, List.mem_append_left _ member⟩
  memory other e there member := by
    refine booted.memory other e there (mem_of_mem_snoc member ?_)
    intro same
    cases d <;> cases same
  memoryOnly other x found := by
    obtain ⟨e, there, member⟩ := booted.memoryOnly other x found
    exact ⟨e, there, List.mem_append_left _ member⟩
  executed := booted.executed

theorem Booted.snoc_variable (booted : Booted m before s) {d : VarDecl} {pointee : ResultId}
    {storage : StorageClass} {c : Contents} (known : m.varDecl? id = some d)
    (typed : m.typeDecl? d.pointerType = some (.pointer pointee storage))
    (zero : m.zero pointee = .ok c) :
    Booted m (before ++ [d.instruction id]) (s.apply (.store id c)) where
  values other e there member := by
    have differ : e.instruction other ≠ d.instruction id := by
      intro same
      cases e <;> cases same
    have old : e.instruction other ∈ before := mem_of_mem_snoc member differ
    obtain ⟨x, found, constant⟩ := booted.values other e there old
    exact ⟨x, found, by cases e <;> exact constant⟩
  valuesOnly other x found := by
    obtain ⟨e, there, member⟩ := booted.valuesOnly other x found
    exact ⟨e, there, List.mem_append_left _ member⟩
  memory other e there member := by
    by_cases same : other = id
    · subst same
      rw [known] at there
      cases there
      exact ⟨pointee, storage, c, typed, zero, Table.get?_insert_self ..⟩
    · have old := mem_of_mem_snoc member (Instruction.ne_of_result rfl rfl same)
      obtain ⟨p, st, x, points, zero, found⟩ := booted.memory other e there old
      refine ⟨p, st, x, points, zero, ?_⟩
      rw [Machine.apply, Table.get?_insert_of_ne _ _ same, found]
  memoryOnly other x found := by
    by_cases same : other = id
    · subst same
      exact ⟨d, known, List.mem_append_right _ (List.mem_singleton_self _)⟩
    · rw [Machine.apply, Table.get?_insert_of_ne _ _ same] at found
      obtain ⟨e, there, member⟩ := booted.memoryOnly other x found
      exact ⟨e, there, List.mem_append_left _ member⟩
  executed := booted.executed

theorem Booted.snoc {i : Instruction} {s' : Machine} (booted : Booted m before s)
    (new : id ∉ results before) (declares : m.Declares id i) (run : declare m s i = .ok s') :
    Booted m (before ++ [i]) s' := by
  rcases declare_cases declares run with ⟨d, rfl, rfl⟩ | ⟨d, c, rfl, known, value, rfl⟩ |
    ⟨d, pointee, storage, c, rfl, known, typed, zero, rfl⟩
  · exact booted.snoc_type d
  · exact booted.snoc_constant new known value
  · exact booted.snoc_variable known typed zero

end Snoc

theorem booted_nil (m : Module) : Booted m [] {} where
  values id d known member := by cases member
  valuesOnly id c found := by cases found
  memory id d known member := by cases member
  memoryOnly id c found := by cases found
  executed := rfl

/-- Declarations are set up one by one, in the order of their ids. -/
theorem Booted.step {m : Module} (co : m.Coherent) {before after : List Instruction}
    {i : Instruction} {id : ResultId} {s s' : Machine} (booted : Booted m before s)
    (all : m.globals = before ++ i :: after) (declares : m.Declares id i)
    (run : declare m s i = .ok s') : Booted m (before ++ [i]) s' := by
  have new : id ∉ results before := by
    intro old
    have later := (co.order all declares.result).1 id old
    rw [ResultId.lt_iff] at later
    omega
  exact booted.snoc new declares run

theorem booted_of_boot {m : Module} (co : m.Coherent) {s : Machine} (boots : boot m = .ok s) :
    Booted m m.globals s := by
  -- The induction is on the declarations still to come; those before them are set up already.
  have run : ∀ (after before : List Instruction) (u : Machine), m.globals = before ++ after →
      Booted m before u → after.foldlM (declare m) u = .ok s → Booted m m.globals s := by
    intro after
    induction after with
    | nil =>
      intro before u all booted done
      cases done
      simpa [all] using booted
    | cons i after ih =>
      intro before u all booted done
      obtain ⟨v, first, rest⟩ := bind_eq_ok.1 done
      obtain ⟨id, declares⟩ := co.declared i (by simp [all])
      exact ih (before ++ [i]) v (by simp [all]) (booted.step co all declares first) rest
  exact run m.globals [] {} rfl (booted_nil m) boots

section Boot
variable {m : Module} {s : Machine} {id : ResultId} (co : m.Coherent) (boots : boot m = .ok s)
include co boots

theorem boot_constant {d : ConstDecl} (known : m.constDecl? id = some d) :
    ∃ c, s.values.get? id = some c ∧ s.constant d = .ok c :=
  (booted_of_boot co boots).values id d known (co.declaration id _ (.constant known))

theorem boot_variable {d : VarDecl} (known : m.varDecl? id = some d) :
    ∃ pointee storage c, m.typeDecl? d.pointerType = some (.pointer pointee storage) ∧
      m.zero pointee = .ok c ∧ s.memory.get? id = some c :=
  (booted_of_boot co boots).memory id d known (co.declaration id _ (.var known))

theorem boot_value {c : Contents} (found : s.values.get? id = some c) :
    ∃ d, m.constDecl? id = some d ∧ s.constant d = .ok c := by
  obtain ⟨d, known, -⟩ := (booted_of_boot co boots).valuesOnly id c found
  obtain ⟨x, same, value⟩ := boot_constant co boots known
  rw [found] at same
  cases same
  exact ⟨d, known, value⟩

theorem boot_memory {c : Contents} (found : s.memory.get? id = some c) :
    ∃ d, m.varDecl? id = some d := by
  obtain ⟨d, known, -⟩ := (booted_of_boot co boots).memoryOnly id c found
  exact ⟨d, known⟩

end Boot

section Extension
variable {m m' : Module} (co : m.Coherent) (grown : m.Extends m')
include co grown

theorem declare_extends (fit : m'.IdsFit) {i : Instruction} (member : i ∈ m.globals) (s : Machine) :
    Answers (declare m s i) (declare m' s i) := by
  intro s' run
  obtain ⟨id, declares⟩ := co.declared i member
  rcases declare_cases declares run with ⟨d, rfl, rfl⟩ | ⟨d, c, rfl, known, value, rfl⟩ |
    ⟨d, pointee, storage, c, rfl, known, typed, zero, rfl⟩
  · exact declare_type s' d
  · rw [declare_constant s (grown.constDecl co known)]
    exact bind_eq_ok.2 ⟨c, value, rfl⟩
  · rw [declare_variable s (grown.varDecl co known) (grown.typeDecl co typed)]
    exact bind_eq_ok.2 ⟨c, Module.zero_extends co grown fit pointee c zero, rfl⟩

/-- Booting the larger module goes on where booting the smaller one ends. -/
theorem boot_extends (fit : m'.IdsFit) {s : Machine} (boots : boot m = .ok s)
    {later : List Instruction} (globals : m'.globals = m.globals ++ later) :
    boot m' = later.foldlM (declare m') s := by
  have shared : ∀ (is : List Instruction) (u : Machine), (∀ i ∈ is, i ∈ m.globals) →
      is.foldlM (declare m) u = .ok s → is.foldlM (declare m') u = .ok s := by
    intro is
    induction is with
    | nil => exact fun u _ done => done
    | cons i is ih =>
      intro u members done
      obtain ⟨v, first, rest⟩ := bind_eq_ok.1 done
      refine bind_eq_ok.2 ⟨v, ?_, ih v (fun j member => members j (List.mem_cons_of_mem _ member)) rest⟩
      exact declare_extends co grown fit (members i List.mem_cons_self) u v first
  unfold boot
  rw [globals, List.foldlM_append, shared m.globals {} (fun _ member => member) boots]
  rfl

theorem boot_agrees (co' : m'.Coherent) {s t : Machine} (boots : boot m = .ok s)
    (boots' : boot m' = .ok t) : s.Agrees m.issued t := by
  obtain ⟨later, globals, beyond⟩ := grown.globals
  rw [boot_extends co grown co'.fit boots globals] at boots'
  have declared : ∀ i ∈ later, ∃ id, m'.Declares id i := by
    intro i member
    exact co'.declared i (globals ▸ List.mem_append_right _ member)
  have start : s.Agrees m.issued s := by
    refine ⟨fun _ _ => rfl, fun _ _ => rfl, ?_, ?_, rfl⟩
    · intro id c found
      obtain ⟨d, known⟩ := boot_memory co boots found
      exact co.given_of_var known
    · intro id c found
      obtain ⟨d, known, -⟩ := boot_value co boots found
      exact co.given_of_constant known
  -- Each later declaration touches one id beyond those of the smaller module.
  have run : ∀ (is : List Instruction) (u : Machine), is ⊆ later → s.Agrees m.issued u →
      is.foldlM (declare m') u = .ok t → s.Agrees m.issued t := by
    intro is
    induction is with
    | nil =>
      intro u _ agree done
      cases done
      exact agree
    | cons i is ih =>
      intro u members agree done
      obtain ⟨v, first, rest⟩ := bind_eq_ok.1 done
      have member : i ∈ later := members List.mem_cons_self
      obtain ⟨id, declares⟩ := declared i member
      have far : m.issued < id.index := beyond id (mem_results.2 ⟨i, member, declares.result⟩)
      have differ : ∀ other : ResultId, other.index ≤ m.issued → other ≠ id := by
        rintro other within rfl
        omega
      refine ih v (fun j there => members (List.mem_cons_of_mem _ there)) ?_ rest
      rcases declare_cases declares first with ⟨d, -, rfl⟩ | ⟨d, c, -, -, -, rfl⟩ |
        ⟨d, pointee, storage, c, -, -, -, -, rfl⟩
      · exact agree
      · refine { agree with values := fun other within => ?_ }
        rw [Machine.apply, Table.get?_insert_of_ne _ _ (differ other within)]
        exact agree.values other within
      · refine { agree with memory := fun other within => ?_ }
        rw [Machine.apply, Table.get?_insert_of_ne _ _ (differ other within)]
        exact agree.memory other within
  exact run later s (fun _ member => member) start boots'

end Extension

end Machine
end Shader
