import Shader.Proofs.Decoding

/-!
Sharing over whole histories. A type other than a structure, or a constant, has one id from its first
declaration on. Main statement: two such calls of a history answer the same id exactly when they ask
for the same thing, a repeated call changes nothing, and a structure always gets an id of its own.
-/

namespace Shader

/-- The call that asks for the constant. The type of a number is not asked for. -/
def ConstDecl.call : ConstDecl → Edit
  | word _ value => .wordConstant value
  | float _ value => .floatConstant value
  | composite type parts => .compositeConstant type parts

def Edit.isShared : Edit → Bool
  | declareType d => d.isShared
  | wordConstant _ => true
  | floatConstant _ => true
  | compositeConstant _ _ => true
  | _ => false

/-- Declares a constant unless one of its shape is found, so that numbers of both kinds are looked for
by type and bits. -/
def Build.declareByShape (d : ConstDecl) : Build ResultId := fun m =>
  match assoc? d.shape (m.constIds.map fun e => (e.1.shape, e.2)) with
  | some id => (id, m)
  | none => (m.freshId, m.addConstant d)

def Edit.performByShape : Edit → Build (Option ResultId)
  | wordConstant value => some <$> do
    let type ← Build.declareType (.int 32 false)
    Build.declareByShape (.word type value)
  | floatConstant value => some <$> do
    let type ← Build.declareType (.float 32)
    Build.declareByShape (.float type value)
  | compositeConstant type parts => some <$> Build.declareByShape (.composite type parts)
  | e => e.perform

namespace Build
variable {α β : Type} {m m' : Module} {a : α}

theorem map_of_run {x : Build α} (run : x m = (a, m')) (f : α → β) : (f <$> x) m = (f a, m') := by
  show (f (x m).1, (x m).2) = (f a, m')
  rw [run]

theorem bind_of_run {x : Build α} (run : x m = (a, m')) (f : α → Build β) :
    (x >>= f) m = f a m' := by
  show f (x m).1 (x m).2 = f a m'
  rw [run]

end Build

namespace Module

def sharedCall? (m : Module) (id : ResultId) : Option Edit :=
  match m.typeDecl? id with
  | some d => if d.isShared then some (.declareType d) else none
  | none => (m.constDecl? id).map ConstDecl.call

section Calls
variable {m : Module} {id : ResultId} {e : Edit}

theorem sharedCall?_type {d : TypeDecl} (shared : d.isShared) (known : m.typeDecl? id = some d) :
    m.sharedCall? id = some (.declareType d) := by
  simp [sharedCall?, known, shared]

theorem Coherent.typeDecl?_eq_none (co : m.Coherent) {c : ConstDecl}
    (known : m.constDecl? id = some c) : m.typeDecl? id = none := by
  rw [co.typeDecl?_eq (co.declaration id _ (.constant known)) rfl, Instruction.typeDecl?_const]

theorem sharedCall?_constant (co : m.Coherent) {c : ConstDecl} (known : m.constDecl? id = some c) :
    m.sharedCall? id = some c.call := by
  simp [sharedCall?, co.typeDecl?_eq_none known, known]

theorem sharedCall?_cases (answered : m.sharedCall? id = some e) :
    (∃ d, e = .declareType d ∧ d.isShared ∧ m.typeDecl? id = some d) ∨
      ∃ c, e = ConstDecl.call c ∧ m.constDecl? id = some c := by
  unfold sharedCall? at answered
  split at answered
  · rename_i d known
    split at answered
    · rename_i shared
      exact .inl ⟨d, (Option.some.inj answered).symm, shared, known⟩
    · cases answered
  · obtain ⟨c, known, same⟩ := Option.map_eq_some_iff.1 answered
    exact .inr ⟨c, same.symm, known⟩

theorem Coherent.given_of_sharedCall (co : m.Coherent) (answered : m.sharedCall? id = some e) :
    id.index ≤ m.issued := by
  rcases sharedCall?_cases answered with ⟨d, -, -, known⟩ | ⟨c, -, known⟩
  · exact co.given_of_type known
  · exact co.given_of_constant known

theorem Continues.sharedCall {m' : Module} (continues : m.Continues m') (co : m.Coherent)
    (answered : m.sharedCall? id = some e) : m'.sharedCall? id = some e := by
  have given := co.given_of_sharedCall answered
  unfold sharedCall? at answered ⊢
  rw [continues.extension.types id given, continues.extension.constants id given]
  exact answered

theorem Coherent.declareType_hit (co : m.Coherent) {d : TypeDecl} (shared : d.isShared)
    (known : m.typeDecl? id = some d) : Build.declareType d m = (id, m) := by
  have found := (co.sharedType d id).2 ⟨shared, known⟩
  simp [Build.declareType, found]

theorem Coherent.declareConstant_hit (co : m.Coherent) {c : ConstDecl}
    (known : m.constDecl? id = some c) : Build.declareConstant c m = (id, m) := by
  have found := (co.sharedConstant c id).2 known
  simp [Build.declareConstant, found]

theorem perform_of_sharedCall (co : m.Coherent) (answered : m.sharedCall? id = some e) :
    e.perform m = (some id, m) := by
  rcases sharedCall?_cases answered with ⟨d, rfl, shared, known⟩ | ⟨c, rfl, known⟩
  · exact Build.map_of_run (co.declareType_hit shared known) some
  · have hit := co.declareConstant_hit known
    cases c with
    | word type value =>
      have typeHit := co.declareType_hit rfl (co.numberType id _ known)
      exact Build.map_of_run ((Build.bind_of_run typeHit _).trans hit) some
    | float type value =>
      have typeHit := co.declareType_hit rfl (co.numberType id _ known)
      exact Build.map_of_run ((Build.bind_of_run typeHit _).trans hit) some
    | composite type parts => exact Build.map_of_run hit some

theorem perform_answers (co : m.Coherent) (shared : e.isShared) :
    e.perform.Ensures m fun answer m' => ∃ id, answer = some id ∧ m'.sharedCall? id = some e := by
  cases e with
  | declareType d =>
    refine .map ((Build.declareType_ensures co d).imp ?_)
    rintro id m' ⟨-, known⟩
    exact ⟨id, rfl, sharedCall?_type shared known⟩
  | wordConstant value =>
    refine .map ((Build.wordConstant_ensures co value).imp ?_)
    rintro id m' ⟨continues, type, known⟩
    exact ⟨id, rfl, sharedCall?_constant continues.coherent known⟩
  | floatConstant value =>
    refine .map ((Build.floatConstant_ensures co value).imp ?_)
    rintro id m' ⟨continues, type, known⟩
    exact ⟨id, rfl, sharedCall?_constant continues.coherent known⟩
  | compositeConstant type parts =>
    refine .map ((Build.declareConstant_ensures co (d := .composite type parts) trivial).imp ?_)
    rintro id m' ⟨continues, known⟩
    exact ⟨id, rfl, sharedCall?_constant continues.coherent known⟩
  | _ => cases shared

theorem fresh_answer_given {x : Build ResultId} [mono : x.Monotone]
    (answer : (x m).1 = m.freshId) (issued : (x m).2.issued = m.issued + 1) :
    (some <$> x).Ensures m fun answer m' => ∀ id, answer = some id → id.index ≤ m'.issued := by
  intro fit id same
  have before : m.IdsFit := fit.of_le (mono.issued_le m)
  have here : id = m.freshId := (Option.some.inj same).symm.trans answer
  have after : ((some <$> x) m).2.issued = m.issued + 1 := issued
  rw [here, index_freshId before]
  omega

theorem perform_struct (co : m.Coherent) (members : List ResultId) :
    (Edit.declareType (.struct members)).perform m =
      (some m.freshId, m.addType (.struct members)) := by
  have new : assoc? (.struct members) m.typeIds = none := by
    refine Option.eq_none_iff_forall_ne_some.2 ?_
    intro id found
    cases ((co.sharedType (.struct members) id).1 found).1
  have miss : Build.declareType (.struct members) m = (m.freshId, m.addType (.struct members)) := by
    simp [Build.declareType, new]
  exact Build.map_of_run miss some

theorem perform_answer_given (co : m.Coherent) (e : Edit) :
    e.perform.Ensures m fun answer m' => ∀ id, answer = some id → id.index ≤ m'.issued := by
  by_cases shared : e.isShared
  · intro fit id same
    obtain ⟨answered, answer, known⟩ := perform_answers co shared fit
    obtain rfl : answered = id := Option.some.inj (answer.symm.trans same)
    exact (e.perform_ensures co fit).coherent.given_of_sharedCall known
  · cases e with
    | declareType d =>
      cases d with
      | struct members =>
        have run := perform_struct co members
        exact fresh_answer_given (Option.some.inj (congrArg Prod.fst run))
          (congrArg (issued ∘ Prod.snd) run)
      | _ => exact absurd rfl shared
    | wordConstant | floatConstant | compositeConstant => exact absurd rfl shared
    | freshId | declareVariable | load | compositeInsert | vectorShuffle | accessChain =>
      exact fresh_answer_given rfl rfl
    | _ =>
      intro fit id same
      cases same

end Calls

/-! Constants found by their shape. -/

section Shapes
variable {m : Module}

theorem Coherent.declareByShape_eq (co : m.Coherent) {d : ConstDecl} (number : m.HasNumberType d) :
    Build.declareByShape d m = Build.declareConstant d m := by
  have apart : ∀ e ∈ m.constIds, e.1.shape = d.shape → e.1 = d := by
    intro e member same
    cases found : assoc? e.1 m.constIds with
    | none => exact absurd (List.mem_map_of_mem member) (not_mem_keys_of_assoc?_eq_none found)
    | some id =>
      exact eq_of_shape (co.numberType id e.1 ((co.sharedConstant e.1 id).1 found)) number same
  rw [Build.declareByShape, assoc?_map_key apart]
  rfl

theorem Coherent.declareNumberByShape_eq (co : m.Coherent) (type : TypeDecl)
    (decl : ResultId → ConstDecl)
    (number : ∀ (m' : Module) id, m'.typeDecl? id = some type → m'.HasNumberType (decl id))
    (fit : ((Build.declareType type >>= fun id => Build.declareConstant (decl id)) m).2.IdsFit) :
    (Build.declareType type >>= fun id => Build.declareByShape (decl id)) m =
      (Build.declareType type >>= fun id => Build.declareConstant (decl id)) m := by
  have between : (Build.declareType type m).2.IdsFit :=
    fit.of_le (Build.Monotone.issued_le (x := Build.declareConstant _) _)
  obtain ⟨continues, known⟩ := Build.declareType_ensures co type between
  exact continues.coherent.declareByShape_eq (number _ _ known)

theorem Coherent.performByShape_eq (co : m.Coherent) {e : Edit} (fit : (m.edit e).IdsFit) :
    e.performByShape m = e.perform m := by
  cases e with
  | wordConstant value =>
    exact congrArg (Prod.map some id) (co.declareNumberByShape_eq (.int 32 false)
      (fun type => .word type value) (fun _ _ known => known) fit)
  | floatConstant value =>
    exact congrArg (Prod.map some id) (co.declareNumberByShape_eq (.float 32)
      (fun type => .float type value) (fun _ _ known => known) fit)
  | compositeConstant type parts =>
    exact congrArg (Prod.map some id) (co.declareByShape_eq (d := .composite type parts) trivial)
  | _ => rfl

end Shapes

/-! Calls of a history. -/

def before (history : List Edit) (k : Nat) : Module := empty.replay (history.take k)

def answer? (history : List Edit) (k : Nat) : Option ResultId :=
  history[k]?.bind fun e => (e.perform (before history k)).1

section Histories
variable {history : List Edit} {k n : Nat} {e : Edit}

theorem before_succ (call : history[k]? = some e) :
    before history (k + 1) = (before history k).edit e := by
  simp [before, List.take_add_one, call, replay]

theorem before_continues (fit : (empty.replay history).IdsFit) (le : k ≤ n) :
    (before history k).Continues (before history n) := by
  obtain ⟨between, split⟩ : history.take k <+: history.take n := List.take_prefix_take_left le
  have whole : empty.replay history = (before history n).replay (history.drop n) := by
    rw [before, ← replay_append, List.take_append_drop]
  have later : (before history n).IdsFit := by
    rw [whole] at fit
    exact fit.of_le (issued_le_replay _ _)
  have grown : before history n = (before history k).replay between := by
    rw [before, before, ← replay_append, split]
  have earlier : (before history k).IdsFit := by
    rw [grown] at later
    exact later.of_le (issued_le_replay _ _)
  have co := Reachable.coherent ⟨history.take k, rfl⟩ earlier
  rw [grown] at later ⊢
  exact replay_continues co between later

theorem before_coherent (fit : (empty.replay history).IdsFit) (n : Nat) :
    (before history n).Coherent := (before_continues fit (Nat.le_refl n)).coherent

theorem answer?_of_call (call : history[k]? = some e) :
    answer? history k = (e.perform (before history k)).1 := by
  simp [answer?, call]

theorem ensures_of_call {post : Option ResultId → Module → Prop}
    (fit : (empty.replay history).IdsFit) (call : history[k]? = some e)
    (known : e.perform.Ensures (before history k) post) :
    post (answer? history k) (before history (k + 1)) := by
  have after := before_coherent fit (k + 1)
  rw [answer?_of_call call, before_succ call] at *
  exact known after.fit

theorem sharedCall?_of_call (fit : (empty.replay history).IdsFit) (call : history[k]? = some e)
    (shared : e.isShared) :
    ∃ id, answer? history k = some id ∧
      ∀ n, k < n → (before history n).sharedCall? id = some e := by
  obtain ⟨id, same, answered⟩ :=
    ensures_of_call fit call (perform_answers (before_coherent fit k) shared)
  refine ⟨id, same, ?_⟩
  intro n later
  exact (before_continues fit later).sharedCall (before_coherent fit (k + 1)) answered

theorem answer?_given (fit : (empty.replay history).IdsFit) {id : ResultId}
    (same : answer? history k = some id) (later : k < n) : id.index ≤ (before history n).issued := by
  obtain ⟨e, call, -⟩ := Option.bind_eq_some_iff.1 same
  have given := ensures_of_call fit call (perform_answer_given (before_coherent fit k) e) id same
  exact Nat.le_trans given (before_continues fit later).extension.issued

theorem struct_answer (fit : (empty.replay history).IdsFit) {members : List ResultId}
    (call : history[k]? = some (.declareType (.struct members))) :
    answer? history k = some (before history k).freshId := by
  rw [answer?_of_call call, perform_struct (before_coherent fit k)]

end Histories

/-- Calls of a history that answer the same are the same, a repeated call finds its answer and leaves
the module as it was, and a structure gets an id that no call before it answered. All of this is so
as well if constants are found by type and bits. -/
theorem same_answer_iff_same_call (history : List Edit) (fit : (empty.replay history).IdsFit) :
    (∀ i j e e', history[i]? = some e → history[j]? = some e' → e.isShared → e'.isShared →
      (answer? history i).isSome ∧ (answer? history i = answer? history j ↔ e = e')) ∧
    (∀ i j e, i < j → history[i]? = some e → history[j]? = some e → e.isShared →
      before history (j + 1) = before history j) ∧
    (∀ i j members, i < j → history[j]? = some (.declareType (.struct members)) →
      (answer? history j).isSome ∧ answer? history i ≠ answer? history j) ∧
    ∀ i (e : Edit), history[i]? = some e →
      e.performByShape (before history i) = e.perform (before history i) := by
  refine ⟨?_, ?_, ?_, ?_⟩
  · intro i j e e' call call' shared shared'
    obtain ⟨id, answer, known⟩ := sharedCall?_of_call fit call shared
    obtain ⟨id', answer', known'⟩ := sharedCall?_of_call fit call' shared'
    -- In a module after both calls each answer still stands for its call.
    have here := known (i + j + 1) (by omega)
    have there := known' (i + j + 1) (by omega)
    simp only [answer, answer', Option.isSome_some, Option.some.injEq, true_and]
    constructor
    · rintro rfl
      exact Option.some.inj (here.symm.trans there)
    · rintro rfl
      have co := before_coherent fit (i + j + 1)
      have same := (perform_of_sharedCall co here).symm.trans (perform_of_sharedCall co there)
      exact Option.some.inj (congrArg Prod.fst same)
  · intro i j e earlier call call' shared
    obtain ⟨id, -, known⟩ := sharedCall?_of_call fit call shared
    have hit := perform_of_sharedCall (before_coherent fit j) (known j earlier)
    rw [before_succ call', edit, hit]
  · intro i j members earlier call
    have fresh := struct_answer fit call
    refine ⟨by simp [fresh], ?_⟩
    intro same
    rw [fresh] at same
    exact ne_freshId (before_coherent fit j).fit (answer?_given fit same earlier) rfl
  · intro i e call
    refine (before_coherent fit i).performByShape_eq ?_
    rw [← before_succ call]
    exact (before_coherent fit (i + 1)).fit

theorem equalBits_shares :
    (empty.replay equalBits).IdsFit ∧ answer? equalBits 0 = answer? equalBits 7 ∧
      answer? equalBits 0 ≠ answer? equalBits 1 ∧ before equalBits 8 = before equalBits 7 ∧
      answer? equalBits 2 ≠ answer? equalBits 3 ∧
      ((Edit.floatConstant ⟨0x3f800000⟩).performByShape (before equalBits 1)).1 =
        answer? equalBits 1 := by
  have fit : (empty.replay equalBits).IdsFit := by decide +kernel
  obtain ⟨shared, repeated, struct, byShape⟩ := same_answer_iff_same_call equalBits fit
  refine ⟨fit, (shared 0 7 _ _ rfl rfl rfl rfl).2.2 rfl, ?_, repeated 0 7 _ (by decide) rfl rfl rfl,
    (struct 2 3 _ (by decide) rfl).2, congrArg Prod.fst (byShape 1 _ rfl)⟩
  intro same
  have clash := (shared 0 1 _ _ rfl rfl rfl rfl).2.1 same
  simp at clash

end Module
end Shader
