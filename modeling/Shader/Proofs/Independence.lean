import Shader.Proofs.Compilation
import Shader.Proofs.Decoding
import Shader.Proofs.ExtensionStability
import Shader.Proofs.Footprint
import Shader.Proofs.Locality

/-!
Programs in one module do not interfere. They share types and constants and run on one machine, but
each of them has variables and values of its own. Main statement: two of them may be called in either
order, with the same outcome, and each leaves in its variables what it leaves when it runs alone.
-/

namespace Shader
open Instruction (results mem_results)

def Module.IsConstant (m : Module) (id : ResultId) : Prop := ∃ d, m.constDecl? id = some d

theorem Module.Coherent.not_isConstant_of_var {m : Module} {id : ResultId} {d : VarDecl}
    (co : m.Coherent) (declared : m.varDecl? id = some d) : ¬m.IsConstant id := by
  rintro ⟨constant, known⟩
  have same := co.eq_of_declares (co.declaration id _ (.var declared)) rfl (.constant known)
  have decoded := congrArg Instruction.varDecl? same
  simp at decoded

/-! Machines start without addresses. -/

theorem Module.zeroWithin_within {own : ResultId → Prop} {m : Module} {depth : Nat} {type : ResultId}
    {c : Contents} (found : m.zeroWithin depth type = .ok c) : c.Within own := by
  induction depth generalizing type c with
  | zero => cases found
  | succ depth ih =>
    unfold zeroWithin at found
    split at found
    · cases found
      exact .scalar 0
    · cases found
      exact .scalar 0
    · obtain ⟨lane, zero, same⟩ := bind_eq_ok.1 found
      cases same
      refine .composite ?_
      intro part member
      rw [List.eq_of_mem_replicate member]
      exact ih zero
    · split at found
      · obtain ⟨element, zero, same⟩ := bind_eq_ok.1 found
        cases same
        refine .composite ?_
        intro part member
        rw [List.eq_of_mem_replicate member]
        exact ih zero
      · cases found
    · obtain ⟨members, zeros, same⟩ := bind_eq_ok.1 found
      cases same
      refine .composite ?_
      intro part member
      obtain ⟨id, zero⟩ := exists_of_mem_forall₂ (mapM_eq_ok.1 zeros) part member
      exact ih zero
    · cases found

namespace Machine
variable {own : ResultId → Prop}

structure AllWithin (own : ResultId → Prop) (s : Machine) : Prop where
  memory : ∀ id c, s.memory.get? id = some c → c.Within own
  values : ∀ id c, s.values.get? id = some c → c.Within own

theorem AllWithin.apply {s : Machine} (all : s.AllWithin own) {e : Effect}
    (stores : ∀ id c, e = .store id c → c.Within own)
    (defines : ∀ id c, e = .define id c → c.Within own) : (s.apply e).AllWithin own := by
  cases e with
  | nothing => exact all
  | store var c =>
    refine ⟨?_, all.values⟩
    intro id d known
    simp only [Machine.apply, Table.get?_insert] at known
    split at known
    · cases known
      exact stores var c rfl
    · exact all.memory id d known
  | define key c =>
    refine ⟨all.memory, ?_⟩
    intro id d known
    simp only [Machine.apply, Table.get?_insert] at known
    split at known
    · cases known
      exact defines key c rfl
    · exact all.values id d known

theorem AllWithin.constant {s : Machine} (all : s.AllWithin own) {d : ConstDecl} {c : Contents}
    (found : s.constant d = .ok c) : c.Within own := by
  cases d with
  | word type value =>
    cases found
    exact .scalar _
  | float type value =>
    cases found
    exact .scalar _
  | composite type parts =>
    obtain ⟨values, known, same⟩ := bind_eq_ok.1 found
    cases same
    refine .composite ?_
    intro part member
    obtain ⟨id, value⟩ := exists_of_mem_forall₂ (mapM_eq_ok.1 known) part member
    unfold Machine.value at value
    split at value
    · rename_i there
      cases value
      exact all.values id _ there
    · cases value

theorem AllWithin.declare {m : Module} {s t : Machine} (all : s.AllWithin own) {id : ResultId}
    {i : Instruction} (declares : m.Declares id i) (run : declare m s i = .ok t) :
    t.AllWithin own := by
  rcases declare_cases declares run with ⟨d, -, rfl⟩ | ⟨d, c, -, -, value, rfl⟩ |
    ⟨d, pointee, storage, c, -, -, -, zero, rfl⟩
  · exact all
  · refine all.apply ?_ ?_
    · intro other x same
      cases same
    · intro other x same
      cases same
      exact all.constant value
  · refine all.apply ?_ ?_
    · intro other x same
      cases same
      exact Module.zeroWithin_within zero
    · intro other x same
      cases same

theorem boot_allWithin {m : Module} (co : m.Coherent) {s : Machine} (boots : boot m = .ok s) :
    s.AllWithin own := by
  have run : ∀ (is : List Instruction) (u : Machine), is ⊆ m.globals → u.AllWithin own →
      is.foldlM (declare m) u = .ok s → s.AllWithin own := by
    intro is
    induction is with
    | nil =>
      intro u _ all done
      cases done
      exact all
    | cons i is ih =>
      intro u members all done
      obtain ⟨v, first, rest⟩ := bind_eq_ok.1 done
      obtain ⟨member, others⟩ := List.cons_subset.1 members
      obtain ⟨id, declares⟩ := co.declared i member
      exact ih v others (all.declare declares first) rest
  refine run m.globals {} (List.Subset.refl _) ⟨?_, ?_⟩ boots
  · intro id c known
    cases known
  · intro id c known
    cases known

theorem boot_unset {m : Module} (co : m.Coherent) {s : Machine} (boots : boot m = .ok s)
    {id : ResultId} (undeclared : ¬∃ d, m.varDecl? id = some d) : s.memory.get? id = none := by
  refine Option.eq_none_iff_forall_ne_some.2 ?_
  intro c known
  exact undeclared (boot_memory co boots known)

theorem boot_sameOn {m : Module} (co : m.Coherent) {s : Machine} (boots : boot m = .ok s) :
    SameOn own m.IsConstant s s := by
  have all : s.AllWithin own := boot_allWithin co boots
  refine ⟨fun _ _ => rfl, fun _ _ => rfl, ?_, fun id c _ => all.memory id c,
    fun id c _ => all.values id c⟩
  intro id constant
  have unset : s.memory.get? id = none := by
    refine boot_unset co boots ?_
    rintro ⟨d, declared⟩
    exact co.not_isConstant_of_var declared constant
  exact ⟨unset, unset⟩

end Machine

/-! Functions with their footprints. -/

namespace Module
variable {m m' : Module} {low high : Nat} {entry : ResultId} {body : List Instruction}

/-- Given out after the first number of ids and up to the second, and not for a constant. -/
def Own (m : Module) (low high : Nat) (id : ResultId) : Prop :=
  low < id.index ∧ id.index ≤ high ∧ ¬m.IsConstant id

theorem Local.own_or_isConstant {id : ResultId} (isLocal : m.Local low id) :
    m.Own low m.issued id ∨ m.IsConstant id := by
  by_cases constant : m.IsConstant id
  · exact .inr constant
  · rcases isLocal with ⟨above, given⟩ | known
    · exact .inl ⟨above, given, constant⟩
    · exact absurd known constant

/-- The function has this body, which refers to ids of its own span and to constants. -/
structure Hosts (m : Module) (entry : ResultId) (low high : Nat) (body : List Instruction) :
    Prop where
  found : ∃ stop rest, Instruction.bodyOf? entry m.code = some (body ++ stop :: rest) ∧ stop.endsCall
  silent : ∀ i ∈ body, i.endsCall = false
  here : ∀ i ∈ body, i.Local (m.Own low high) m.IsConstant

theorem Extends.isConstant_iff (grown : m.Extends m') {id : ResultId} (given : id.index ≤ m.issued) :
    m'.IsConstant id ↔ m.IsConstant id := by
  simp only [IsConstant, grown.constants id given]

theorem Hosts.grows (hosts : m.Hosts entry low high body) (co : m.Coherent) (grown : m.Extends m')
    (given : high ≤ m.issued) : m'.Hosts entry low high body where
  found := by
    obtain ⟨stop, rest, found, stops⟩ := hosts.found
    obtain ⟨more, code⟩ := grown.code
    refine ⟨stop, rest ++ more, ?_, stops⟩
    rw [← code, Instruction.bodyOf?_append found]
    simp
  silent := hosts.silent
  here i member := by
    have own : ∀ id, m.Own low high id → m'.Own low high id := by
      rintro id ⟨above, below, free⟩
      exact ⟨above, below, fun constant => free ((grown.isConstant_iff (by omega)).1 constant)⟩
    constructor
    · intro id mentioned
      rcases (hosts.here i member).operands id mentioned with mine | ⟨d, known⟩
      · exact .inl (own id mine)
      · exact .inr ⟨d, grown.constDecl co known⟩
    · intro id result
      exact own id ((hosts.here i member).result id result)

theorem Hosts.call_eq_ok (hosts : m.Hosts entry low high body) {s t : Machine} :
    Exec.call m entry s = .ok () t ↔ s.execute body = .ok t := by
  obtain ⟨stop, rest, found, stops⟩ := hosts.found
  rw [Exec.call_eq_ok]
  constructor
  · rintro ⟨is, stop', rest', found', silent, stops', run⟩
    rw [found, Option.some.injEq] at found'
    rw [Instruction.body_unique hosts.silent silent stops stops' found']
    exact run
  · intro run
    exact ⟨body, stop, rest, found, hosts.silent, stops, run⟩

theorem Hosts.call_unset (hosts : m.Hosts entry low high body) {s t : Machine} {id : ResultId}
    (run : Exec.call m entry s = .ok () t) (unset : s.memory.get? id = none) :
    t.memory.get? id = none := by
  refine Option.eq_none_iff_forall_ne_some.2 ?_
  intro c known
  obtain ⟨d, before⟩ := Machine.execute_memory_domain (hosts.call_eq_ok.1 run) known
  rw [unset] at before
  cases before

/-- Two functions with spans of their own may be called in either order. -/
theorem Hosts.calls_commute {entry' : ResultId} {low' high' : Nat} {body' : List Instruction}
    {s t u : Machine} (co : m.Coherent) (boots : Machine.boot m = .ok s)
    (hosts : m.Hosts entry low high body) (hosts' : m.Hosts entry' low' high' body')
    (apart : high ≤ low' ∨ high' ≤ low) (run : Exec.call m entry s = .ok () t)
    (run' : Exec.call m entry' s = .ok () u) :
    ∃ final, Exec.call m entry' t = .ok () final ∧ Exec.call m entry u = .ok () final ∧
      Machine.Frame (m.Own low high) s t ∧ Machine.Frame (m.Own low' high') s u ∧
      (∀ id, m.Own low high id → final.memory.get? id = t.memory.get? id) ∧
      (∀ id, m.Own low' high' id → final.memory.get? id = u.memory.get? id) ∧
      ∀ id, ¬m.Own low high id → ¬m.Own low' high' id →
        final.memory.get? id = s.memory.get? id := by
  rw [hosts.call_eq_ok] at run
  rw [hosts'.call_eq_ok] at run'
  have disjoint : ∀ id, m.Own low high id → ¬m.Own low' high' id := by
    rintro id ⟨above, below, -⟩ ⟨above', below', -⟩
    omega
  have common : ∀ id, m.IsConstant id → ¬m.Own low high id ∧ ¬m.Own low' high' id :=
    fun id constant => ⟨fun own => own.2.2 constant, fun own => own.2.2 constant⟩
  obtain ⟨final, later, later', rest⟩ := Machine.execute_commute
    (Machine.boot_sameOn co boots) (Machine.boot_sameOn co boots) disjoint common hosts.here
    hosts'.here run run'
  exact ⟨final, hosts'.call_eq_ok.2 later, hosts.call_eq_ok.2 later', rest⟩

end Module

theorem Lifetime.emit_hosts {l : Lifetime} {m m' : Module} {s : Session}
    {blocks : List FunctionBlock} {sessions : List Session} (closed : m.Closed blocks sessions)
    (done : l.emit m = .ok (s, m')) (fit : m'.IdsFit) :
    ∃ body, m'.Hosts s.emitter.entry m.issued m'.issued body := by
  obtain ⟨e, void, type, label, m₁, is, m₂, started, opens, ran, emits, entry, -, rfl⟩ :=
    emit_stages closed.tidy.sound done fit
  have fitEnd : m₂.IdsFit := fit
  have fitStart : m₁.IdsFit := fitEnd.of_le emits.extension.issued
  have outputNew := (VertexEmitter.start_output_new m).of_run started fitStart
  obtain ⟨is', adds⟩ := Session.performAll_local ran fitEnd opens.sound opens.extension.issued
    (opens.refs_local outputNew)
  obtain rfl : is = is' := List.append_cancel_left (emits.code.symm.trans adds.code)
  have own : ∀ {id : ResultId}, m.issued < id.index → id.index ≤ m₂.issued →
      id ∉ results m₂.globals → (s.emitter.finish m₂).2.Own m.issued m₂.issued id := by
    rintro id above below free
    refine ⟨above, below, ?_⟩
    rintro ⟨d, known⟩
    exact free (emits.sound.coherent.mem_results_of_declares (.constant known))
  refine ⟨⟨.opLabel, some label, none, []⟩ :: is, ⟨⟨.opReturn, none, none, []⟩,
    [⟨.opFunctionEnd, none, none, []⟩], ?_, rfl⟩,
    Instruction.endsCall_of_labelled emits.straight, ?_⟩
  · rw [VertexEmitter.finish_code, emits.code, opens.code, entry, List.append_assoc,
      List.append_assoc, Instruction.bodyOf?_head (opens.entry_new closed.tidy)]
    rfl
  · intro i member
    rcases List.mem_cons.1 member with rfl | later
    · refine ⟨by simp, ?_⟩
      intro id result
      obtain rfl := Option.some.inj result
      obtain ⟨above, below, free⟩ := opens.new label (by simp)
      exact own above (Nat.le_trans below emits.extension.issued)
        (emits.extension.not_mem_results below free)
    · refine ⟨fun id mentioned => (adds.operands i later id mentioned).own_or_isConstant, ?_⟩
      intro id result
      obtain ⟨above, below, free⟩ := emits.new id (mem_results.2 ⟨i, later, result⟩)
      exact own (Nat.lt_of_le_of_lt opens.extension.issued above) below free

/-! Programs one after the other. -/

theorem emitAll_append_eq_ok {xs ys : List Lifetime} {m m' : Module} {sessions : List Session}
    (done : emitAll (xs ++ ys) m = .ok (sessions, m')) :
    ∃ first m₁ second, emitAll xs m = .ok (first, m₁) ∧ emitAll ys m₁ = .ok (second, m') := by
  induction xs generalizing m sessions with
  | nil => exact ⟨[], m, sessions, rfl, done⟩
  | cons l xs ih =>
    obtain ⟨s, m₁, others, first, later, -⟩ := emitAll_cons_eq_ok.1 done
    obtain ⟨ss, m₂, second, before, after⟩ := ih later
    exact ⟨s :: ss, m₂, second, emitAll_cons_eq_ok.2 ⟨s, m₁, ss, first, before, rfl⟩, after⟩

theorem emitAll_extends {ls : List Lifetime} {m m' : Module} {before sessions : List Session}
    {blocks : List FunctionBlock} (closed : m.Closed blocks before)
    (done : emitAll ls m = .ok (sessions, m')) (fit : m'.IdsFit) : m.Extends m' := by
  induction ls generalizing m before sessions blocks with
  | nil =>
    cases done
    exact .refl _
  | cons l ls ih =>
    obtain ⟨s, m₁, others, first, later, -⟩ := emitAll_cons_eq_ok.1 done
    obtain ⟨grown, b, closedNext⟩ :=
      Lifetime.emit_closed closed first (fit.of_le (issued_le_emitAll later))
    exact grown.trans (ih closedNext later)

theorem emitAll_getElem {ls : List Lifetime} {m m' : Module} {sessions : List Session} {k : Nat}
    {s : Session} (done : emitAll ls m = .ok (sessions, m')) (there : sessions[k]? = some s) :
    ∃ l past before now after rest, l ∈ ls ∧ l.emit before = .ok (s, after) ∧
      emitAll (ls.take k) m = .ok (past, before) ∧ emitAll (ls.take (k + 1)) m = .ok (now, after) ∧
      emitAll (ls.drop (k + 1)) after = .ok (rest, m') := by
  induction ls generalizing m sessions k with
  | nil =>
    cases done
    cases there
  | cons l ls ih =>
    obtain ⟨s₀, m₁, others, first, later, rfl⟩ := emitAll_cons_eq_ok.1 done
    cases k with
    | zero =>
      obtain rfl := Option.some.inj there
      exact ⟨l, [], m, [s₀], m₁, others, List.mem_cons_self, first, rfl,
        emitAll_cons_eq_ok.2 ⟨s₀, m₁, [], first, rfl, rfl⟩, later⟩
    | succ k =>
      obtain ⟨l', past, before, now, after, rest, member, emitted, earlier, through, last⟩ :=
        ih later there
      exact ⟨l', s₀ :: past, before, s₀ :: now, after, rest, List.mem_cons_of_mem l member, emitted,
        emitAll_cons_eq_ok.2 ⟨s₀, m₁, past, first, earlier, rfl⟩,
        emitAll_cons_eq_ok.2 ⟨s₀, m₁, now, first, through, rfl⟩, last⟩

theorem Lifetime.emit_run_exists {l : Lifetime} {m m' : Module} {s : Session}
    {blocks : List FunctionBlock} {sessions : List Session} (closed : m.Closed blocks sessions)
    (allowed : ({} : LaneMachine).AllowsAll l.commands) (done : l.emit m = .ok (s, m'))
    (fit : m'.IdsFit) : ∃ t, m'.run s.emitter.entry = .ok t := by
  obtain ⟨e, void, type, label, m₁, -, m₂, -, opens, ran, -⟩ :=
    emit_stages closed.tidy.sound done fit
  obtain ⟨stage, commands⟩ := l
  obtain rfl : stage = .vertex := by
    cases stage with
    | vertex => rfl
    | _ => cases done
  rcases Session.performAll_agrees (Session.fits_start opens.temps) allowed m₁ with
    ⟨index, declared, -, -, refused⟩ | ⟨lanes, session, m₃, performed, -⟩
  · rw [ran] at refused
    cases refused
  · obtain ⟨t, run, -⟩ := emit_runs closed allowed performed done fit
    exact ⟨t, run⟩

def moduleAfter? (ls : List Lifetime) (count : Nat) : Option Module :=
  (emitAll (ls.take count) .empty).toOption.map Prod.snd

theorem moduleAfter?_eq_some {ls : List Lifetime} {count : Nat} {m : Module}
    {sessions : List Session} (done : emitAll (ls.take count) .empty = .ok (sessions, m)) :
    moduleAfter? ls count = some m := by
  rw [moduleAfter?, done]
  rfl

def DeclaredBy (ls : List Lifetime) (k : Nat) (var : ResultId) : Prop :=
  ∃ before ∈ moduleAfter? ls k, ∃ after ∈ moduleAfter? ls (k + 1),
    before.varDecl? var = none ∧ (after.varDecl? var).isSome

instance (ls : List Lifetime) (k : Nat) (var : ResultId) : Decidable (DeclaredBy ls k var) :=
  inferInstanceAs (Decidable (∃ before ∈ moduleAfter? ls k, ∃ after ∈ moduleAfter? ls (k + 1),
    before.varDecl? var = none ∧ (after.varDecl? var).isSome))

/-- One of the programs in a module, with the module as it was before the program and after it. -/
structure EmittedAt (ls : List Lifetime) (k : Nat) (s : Session) (before after m : Module) :
    Prop where
  program : ∃ l ∈ ls, l.emit before = .ok (s, after)
  earlier : ∃ past, emitAll (ls.take k) .empty = .ok (past, before)
  through : ∃ now, emitAll (ls.take (k + 1)) .empty = .ok (now, after)
  closed : ∃ blocks sessions, before.Closed blocks sessions
  grown : before.Continues after
  later : after.Continues m

theorem emittedAt_of_getElem {ls : List Lifetime} {sessions : List Session} {m : Module} {k : Nat}
    {s : Session} (emitted : emitAll ls .empty = .ok (sessions, m)) (fit : m.IdsFit)
    (there : sessions[k]? = some s) : ∃ before after, EmittedAt ls k s before after m := by
  obtain ⟨l, past, before, now, after, rest, member, done, earlier, through, last⟩ :=
    emitAll_getElem emitted there
  have fitAfter : after.IdsFit := fit.of_le (issued_le_emitAll last)
  have fitBefore : before.IdsFit := fitAfter.of_le (issued_le_emit done)
  obtain ⟨-, blocks, closed⟩ := emitAll_closed Module.closed_empty earlier fitBefore
  obtain ⟨grown, b, closedAfter⟩ := Lifetime.emit_closed closed done fitAfter
  obtain ⟨-, more, closedEnd⟩ := emitAll_closed closedAfter last fit
  exact ⟨before, after, ⟨l, member, done⟩, ⟨past, earlier⟩, ⟨now, through⟩, ⟨_, _, closed⟩,
    ⟨closedAfter.tidy.sound.coherent, grown⟩,
    ⟨closedEnd.tidy.sound.coherent, emitAll_extends closedAfter last fit⟩⟩

namespace EmittedAt
variable {ls : List Lifetime} {j k : Nat} {s s' : Session} {before after before' after' m : Module}

theorem issued_le (first : EmittedAt ls j s before after m)
    (second : EmittedAt ls k s' before' after' m) (less : j < k) :
    after.issued ≤ before'.issued := by
  obtain ⟨now, through⟩ := first.through
  obtain ⟨past, earlier⟩ := second.earlier
  have split := List.take_append_drop (j + 1) (ls.take k)
  rw [List.take_take, Nat.min_eq_left less] at split
  rw [← split] at earlier
  obtain ⟨now', m₁, between, through', rest⟩ := emitAll_append_eq_ok earlier
  rw [through] at through'
  cases through'
  exact issued_le_emitAll rest

theorem hosts (emitted : EmittedAt ls k s before after m) :
    ∃ body, m.Hosts s.emitter.entry before.issued after.issued body := by
  obtain ⟨l, -, done⟩ := emitted.program
  obtain ⟨blocks, sessions, closed⟩ := emitted.closed
  have co := emitted.grown.coherent
  obtain ⟨body, hosts⟩ := Lifetime.emit_hosts closed done co.fit
  exact ⟨body, hosts.grows co emitted.later.extension (Nat.le_refl _)⟩

theorem runs (emitted : EmittedAt ls k s before after m)
    (allowed : ∀ l ∈ ls, ({} : LaneMachine).AllowsAll l.commands) {t₀ : Machine}
    (boots : Machine.boot m = .ok t₀) :
    ∃ t, m.run s.emitter.entry = .ok t ∧ Exec.call m s.emitter.entry t₀ = .ok () t := by
  obtain ⟨l, member, done⟩ := emitted.program
  obtain ⟨blocks, sessions, closed⟩ := emitted.closed
  have co := emitted.grown.coherent
  obtain ⟨r, run⟩ := Lifetime.emit_run_exists closed (allowed l member) done co.fit
  obtain ⟨t, later, -⟩ := Module.run_extends co emitted.later run boots
  obtain ⟨t₀', boots', called⟩ := Module.run_eq_call.1 later
  rw [boots] at boots'
  cases boots'
  exact ⟨t, later, called⟩

theorem declaredBy_iff (emitted : EmittedAt ls k s before after m) {id : ResultId} :
    DeclaredBy ls k id ↔ m.Own before.issued after.issued id ∧ ∃ d, m.varDecl? id = some d := by
  have grown := emitted.grown.extension
  have later := emitted.later.extension
  obtain ⟨blocks, sessions, closed⟩ := emitted.closed
  obtain ⟨past, earlier⟩ := emitted.earlier
  obtain ⟨now, through⟩ := emitted.through
  simp only [DeclaredBy, moduleAfter?_eq_some earlier, moduleAfter?_eq_some through, Option.mem_def,
    Option.some.injEq, exists_eq_left']
  constructor
  · rintro ⟨unknown, known⟩
    obtain ⟨d, known⟩ := Option.isSome_iff_exists.1 known
    have declared := later.varDecl emitted.grown.coherent known
    refine ⟨⟨?_, emitted.grown.coherent.given_of_var known,
      emitted.later.coherent.not_isConstant_of_var declared⟩, d, declared⟩
    refine Nat.lt_of_not_le ?_
    intro old
    rw [grown.vars id old, unknown] at known
    cases known
  · rintro ⟨⟨above, below, -⟩, d, declared⟩
    constructor
    · refine Option.eq_none_iff_forall_ne_some.2 ?_
      intro d' known
      have given := closed.tidy.sound.coherent.given_of_var known
      omega
    · rw [← later.vars id below, declared]
      rfl

end EmittedAt

/-- Programs in one module do not interfere: any two of them run, in either order and with the same
outcome, and each leaves in its own variables what it leaves when it runs alone. -/
theorem programs_independent {lifetimes : List Lifetime} {sessions : List Session} {m : Module}
    {j k : Nat} {one other : Session} (emitted : emitAll lifetimes Module.empty = .ok (sessions, m))
    (fit : m.IdsFit) (allowed : ∀ l ∈ lifetimes, ({} : LaneMachine).AllowsAll l.commands)
    (differ : j ≠ k) (first : sessions[j]? = some one) (second : sessions[k]? = some other) :
    ∃ start alone alone' final, Machine.boot m = .ok start ∧
      m.run one.emitter.entry = .ok alone ∧ m.run other.emitter.entry = .ok alone' ∧
      Exec.call m one.emitter.entry start = .ok () alone ∧
      Exec.call m other.emitter.entry alone = .ok () final ∧
      Exec.call m other.emitter.entry start = .ok () alone' ∧
      Exec.call m one.emitter.entry alone' = .ok () final ∧
      ∀ var,
        (DeclaredBy lifetimes j var → final.memory.get? var = alone.memory.get? var) ∧
        (DeclaredBy lifetimes k var → final.memory.get? var = alone'.memory.get? var) ∧
        (¬DeclaredBy lifetimes j var → alone.memory.get? var = start.memory.get? var) ∧
        (¬DeclaredBy lifetimes k var → alone'.memory.get? var = start.memory.get? var) ∧
        (¬DeclaredBy lifetimes j var → ¬DeclaredBy lifetimes k var →
          final.memory.get? var = start.memory.get? var) := by
  obtain ⟨before, after, at₁⟩ := emittedAt_of_getElem emitted fit first
  obtain ⟨before', after', at₂⟩ := emittedAt_of_getElem emitted fit second
  obtain ⟨-, blocks, closed⟩ := emitAll_closed Module.closed_empty emitted fit
  have co := closed.tidy.sound.coherent
  obtain ⟨start, boots⟩ := closed.tidy.sound.boots
  obtain ⟨alone, run, call⟩ := at₁.runs allowed boots
  obtain ⟨alone', run', call'⟩ := at₂.runs allowed boots
  have apart : after.issued ≤ before'.issued ∨ after'.issued ≤ before.issued := by
    rcases Nat.lt_or_gt_of_ne differ with less | greater
    · exact .inl (at₁.issued_le at₂ less)
    · exact .inr (at₂.issued_le at₁ greater)
  obtain ⟨body, hosts⟩ := at₁.hosts
  obtain ⟨body', hosts'⟩ := at₂.hosts
  obtain ⟨final, later, later', frame, frame', mine, theirs, others⟩ :=
    hosts.calls_commute co boots hosts' apart call call'
  refine ⟨start, alone, alone', final, boots, run, run', call, later, call', later', ?_⟩
  intro var
  rw [at₁.declaredBy_iff, at₂.declaredBy_iff]
  by_cases declared : ∃ d, m.varDecl? var = some d
  · simp only [declared, and_true]
    exact ⟨mine var, theirs var, frame.memory var, frame'.memory var, others var⟩
  · have unset : start.memory.get? var = none := Machine.boot_unset co boots declared
    have unset₁ := hosts.call_unset call unset
    have unset₂ := hosts'.call_unset call' unset
    have unset₃ := hosts'.call_unset later unset₁
    simp [unset, unset₁, unset₂, unset₃]

theorem two_programs_independent : ∃ sessions m one other start alone alone' final,
    emitAll twoPrograms Module.empty = .ok (sessions, m) ∧ m.IdsFit ∧
    sessions[0]? = some one ∧ sessions[1]? = some other ∧ Machine.boot m = .ok start ∧
    m.run one.emitter.entry = .ok alone ∧ m.run other.emitter.entry = .ok alone' ∧
    Exec.call m other.emitter.entry alone = .ok () final ∧
    Exec.call m one.emitter.entry alone' = .ok () final ∧
    DeclaredBy twoPrograms 0 ⟨15⟩ ∧ DeclaredBy twoPrograms 1 ⟨29⟩ ∧
    final.memory.get? ⟨15⟩ = alone.memory.get? ⟨15⟩ ∧
    final.memory.get? ⟨29⟩ = alone'.memory.get? ⟨29⟩ ∧
    alone.memory.get? ⟨29⟩ = start.memory.get? ⟨29⟩ ∧
    alone'.memory.get? ⟨15⟩ = start.memory.get? ⟨15⟩ := by
  have check : (match emitAll twoPrograms Module.empty with
      | .ok (_, m) => decide m.IdsFit
      | .error _ => false) = true := by decide +kernel
  have allowed : ∀ l ∈ twoPrograms, ({} : LaneMachine).AllowsAll l.commands := by decide +kernel
  have mine : DeclaredBy twoPrograms 0 ⟨15⟩ := by decide +kernel
  have notMine : ¬DeclaredBy twoPrograms 0 ⟨29⟩ := by decide +kernel
  have theirs : DeclaredBy twoPrograms 1 ⟨29⟩ := by decide +kernel
  have notTheirs : ¬DeclaredBy twoPrograms 1 ⟨15⟩ := by decide +kernel
  cases emitted : emitAll twoPrograms Module.empty with
  | error refusal => simp [emitted] at check
  | ok result =>
    obtain ⟨sessions, m⟩ := result
    simp only [emitted, decide_eq_true_eq] at check
    obtain ⟨count, -⟩ := emitAll_closed Module.closed_empty emitted check
    obtain ⟨one, other, rfl⟩ := List.length_eq_two.1 count
    obtain ⟨start, alone, alone', final, boots, run, run', -, later, -, later', memory⟩ :=
      programs_independent (j := 0) (k := 1) emitted check allowed (by decide) rfl rfl
    exact ⟨_, m, one, other, start, alone, alone', final, rfl, check, rfl, rfl, boots, run, run',
      later, later', mine, theirs, (memory ⟨15⟩).1 mine, (memory ⟨29⟩).2.1 theirs,
      (memory ⟨29⟩).2.2.1 notMine, (memory ⟨15⟩).2.2.2.1 notTheirs⟩

end Shader
