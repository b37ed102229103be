import Shader.Machine.Run
import Shader.Proofs.Decoding
import Shader.Proofs.Legibility

/-!
The text of a module as a whole. Main statement: modules with the same text declare, compute and run
the same, unless a string breaks a line or a constant is a NaN. Nothing is known of the names of
enumerants but that they are words and distinct in each vocabulary.

Names, annotations and entry points cannot be read back, since strings are written without escapes;
but the lines that they stand on can be told from all others by their first words.
-/

namespace Shader

theorem forall_mem_concat {α : Type} {P : α → Prop} {as : List α} {a : α} (all : ∀ x ∈ as, P x)
    (last : P a) : ∀ x ∈ as ++ [a], P x := List.forall_mem_append.2 ⟨all, by simpa using last⟩

inductive Section where
  | capabilities
  | memoryModel
  | entryPoints
  | names
  | annotations
  | globals
  | code
deriving DecidableEq

def Section.all : List Section :=
  [capabilities, memoryModel, entryPoints, names, annotations, globals, code]

namespace Opcode

def home? : Opcode → Option Section
  | .opCapability => some .capabilities
  | .opMemoryModel => some .memoryModel
  | .opEntryPoint => some .entryPoints
  | .opName | .opMemberName => some .names
  | .opDecorate | .opMemberDecorate => some .annotations
  | .opTypeVoid | .opTypeInt | .opTypeFloat | .opTypeVector | .opTypeArray | .opTypeStruct
  | .opTypePointer | .opTypeFunction | .opConstant | .opConstantComposite | .opVariable =>
    some .globals
  | .opFunction | .opFunctionEnd | .opLabel | .opReturn | .opLoad | .opStore | .opAccessChain
  | .opVectorShuffle | .opCompositeInsert => some .code
  | .opNop | .other _ => none

theorem mem_all_of_home {op : Opcode} {s : Section} (home : op.home? = some s) : op ∈ all := by
  cases op with
  | other code => cases home
  | _ => decide

end Opcode

def sectionOf? (names : Naming) (line : List Char) : Option Section :=
  (Opcode.all.find? fun op => (op.text names).toList = headWord line).bind Opcode.home?

section Heads
variable {names : Naming} (clear : names.Clear)
include clear

theorem sectionOf?_of_headWord {line : List Char} {op : Opcode} {s : Section}
    (head : headWord line = (op.text names).toList) (home : op.home? = some s) :
    sectionOf? names line = some s := by
  have found : Opcode.all.find? (fun op => (op.text names).toList = headWord line) = some op := by
    cases found : Opcode.all.find? fun op => (op.text names).toList = headWord line with
    | none =>
      exact absurd (List.find?_eq_none.1 found op (Opcode.mem_all_of_home home)) (by simp [head])
    | some op' =>
      have same := List.find?_some found
      rw [Opcode.text_injective clear ((of_decide_eq_true same).trans head)]
  rw [sectionOf?, found, Option.bind_some, home]

theorem sectionOf?_intercalate {op : Opcode} {s : Section} (home : op.home? = some s)
    (ws : List (List Char)) :
    sectionOf? names ([' '].intercalate ((op.text names).toList :: ws)) = some s := by
  refine sectionOf?_of_headWord clear (headWord_intercalate (op.not_mem_text clear (.inl rfl)) ?_ ws)
    home
  rw [Opcode.toList_text, List.head?_cons]

theorem sectionOf?_text {i : Instruction} {s : Section} (home : i.opcode.home? = some s) :
    sectionOf? names (i.text names).toList = some s :=
  sectionOf?_of_headWord clear (headWord_text clear i) home

end Heads

theorem eq_of_joined {ls ls' : List (List Char)} (unbroken : ∀ l ∈ ls, '\n' ∉ l)
    (unbroken' : ∀ l ∈ ls', '\n' ∉ l)
    (same : ls.flatMap (· ++ ['\n']) = ls'.flatMap (· ++ ['\n'])) : ls = ls' := by
  induction ls generalizing ls' with
  | nil =>
    cases ls' with
    | nil => rfl
    | cons l' ls' => simp at same
  | cons l ls ih =>
    cases ls' with
    | nil => simp at same
    | cons l' ls' =>
      rw [List.forall_mem_cons] at unbroken unbroken'
      simp only [List.flatMap_cons, List.append_assoc, List.singleton_append] at same
      have first := congrArg (Chars.before '\n') same
      rw [Chars.before_append unbroken.1, Chars.before_append unbroken'.1] at first
      have others := congrArg (Chars.after '\n') same
      rw [Chars.after_append unbroken.1, Chars.after_append unbroken'.1] at others
      rw [first, ih unbroken.2 unbroken'.2 others]

/-! Tables are read from sections, so that equal sections have equal tables. -/

section Tables
variable {α : Type}

/-- The table of what the instructions say about their results. The last one to speak of an id is
heard. -/
def tabulate (decode : Instruction → Option α) (is : List Instruction) : Table α :=
  is.foldl (fun table i => (i.result.bind fun id => (decode i).map fun d => table.insert id d).getD
    table) ∅

theorem tabulate_concat_some {decode : Instruction → Option α} (is : List Instruction)
    {i : Instruction} {id : ResultId} {d : α} (result : i.result = some id)
    (decoded : decode i = some d) :
    tabulate decode (is ++ [i]) = (tabulate decode is).insert id d := by
  simp [tabulate, result, decoded]

theorem tabulate_concat_none {decode : Instruction → Option α} (is : List Instruction)
    {i : Instruction} (decoded : decode i = none) :
    tabulate decode (is ++ [i]) = tabulate decode is := by
  simp [tabulate, decoded, Option.bind_fun_none]

def Instruction.valueType? (i : Instruction) : Option ResultId :=
  if i.computes then i.resultType else none

end Tables

structure Instruction.IsGlobal (i : Instruction) : Prop where
  home : i.opcode.home? = some .globals
  typed : i.resultType.isSome = i.opcode.isTyped
  fill : Operand.Fill i.opcode.slot i.operands

theorem TypeDecl.isGlobal (d : TypeDecl) (id : ResultId) : (d.instruction id).IsGlobal where
  home := by cases d <;> rfl
  typed := by cases d <;> rfl
  fill := by
    cases d with
    | void => trivial
    | int | vector | array | pointer => exact ⟨rfl, rfl, trivial⟩
    | float => exact ⟨rfl, trivial⟩
    | function result params => exact Operand.fill_refs (fun _ => rfl) (result :: params)
    | struct members => exact Operand.fill_refs (fun _ => rfl) members

theorem ConstDecl.isGlobal (d : ConstDecl) (id : ResultId) : (d.instruction id).IsGlobal where
  home := by cases d <;> rfl
  typed := by cases d <;> rfl
  fill := by
    cases d with
    | word | float => exact ⟨rfl, trivial⟩
    | composite type parts => exact Operand.fill_refs (fun _ => rfl) parts

theorem VarDecl.isGlobal (d : VarDecl) (id : ResultId) : (d.instruction id).IsGlobal :=
  ⟨rfl, rfl, rfl, trivial⟩

theorem Instruction.of_computes {i : Instruction} (computes : i.computes = true) :
    i.opcode.home? = some .code ∧ i.opcode.isTyped = true := by
  simp only [Instruction.computes, decide_eq_true_eq] at computes
  rcases computes with same | same | same | same <;> rw [same] <;> exact ⟨rfl, rfl⟩

namespace Module

/-- Every instruction stands in the section of its opcode, and the tables are read from the
sections. -/
structure Arranged (m : Module) : Prop where
  names : ∀ i ∈ m.names, i.opcode.home? = some .names
  annotations : ∀ i ∈ m.annotations, i.opcode.home? = some .annotations
  globals : ∀ i ∈ m.globals, i.IsGlobal
  code : ∀ i ∈ m.code, i.opcode.home? = some .code ∧ i.Legible
  types : m.types = tabulate Instruction.typeDecl? m.globals
  constants : m.constants = tabulate Instruction.constDecl? m.globals
  vars : m.vars = tabulate Instruction.varDecl? m.globals
  resultTypes : m.resultTypes = tabulate Instruction.valueType? m.code

theorem arranged_empty : empty.Arranged where
  names i member := by cases member
  annotations i member := by cases member
  globals i member := by cases member
  code i member := by cases member
  types := rfl
  constants := rfl
  vars := rfl
  resultTypes := rfl

namespace Arranged
variable {m : Module} (arranged : m.Arranged)
include arranged

theorem addCapability (capability : Capability) : (m.addCapability capability).Arranged := by
  unfold Module.addCapability
  split
  · exact arranged
  · exact { arranged with }

theorem addType (d : TypeDecl) : (m.addType d).Arranged :=
  { arranged with
    globals := forall_mem_concat arranged.globals (d.isGlobal _)
    types := by
      rw [Module.addType, tabulate_concat_some _ rfl (Instruction.typeDecl?_type _ d),
        ← arranged.types]
    constants := by
      rw [Module.addType, tabulate_concat_none _ (Instruction.constDecl?_type _ d)]
      exact arranged.constants
    vars := by
      rw [Module.addType, tabulate_concat_none _ (Instruction.varDecl?_type _ d)]
      exact arranged.vars }

theorem addConstant (d : ConstDecl) : (m.addConstant d).Arranged :=
  { arranged with
    globals := forall_mem_concat arranged.globals (d.isGlobal _)
    types := by
      rw [Module.addConstant, tabulate_concat_none _ (Instruction.typeDecl?_const _ d)]
      exact arranged.types
    constants := by
      rw [Module.addConstant, tabulate_concat_some _ rfl (Instruction.constDecl?_const _ d),
        ← arranged.constants]
    vars := by
      rw [Module.addConstant, tabulate_concat_none _ (Instruction.varDecl?_const _ d)]
      exact arranged.vars }

theorem addVariable (d : VarDecl) : (m.addVariable d).Arranged :=
  { arranged with
    globals := forall_mem_concat arranged.globals (d.isGlobal _)
    types := by
      rw [Module.addVariable, tabulate_concat_none _ (Instruction.typeDecl?_var _ d)]
      exact arranged.types
    constants := by
      rw [Module.addVariable, tabulate_concat_none _ (Instruction.constDecl?_var _ d)]
      exact arranged.constants
    vars := by
      rw [Module.addVariable, tabulate_concat_some _ rfl (Instruction.varDecl?_var _ d),
        ← arranged.vars] }

theorem addCode {i : Instruction} (home : i.opcode.home? = some .code) (legible : i.Legible)
    (silent : i.computes = false) : (m.addCode i).Arranged :=
  { arranged with
    code := forall_mem_concat arranged.code ⟨home, legible⟩
    resultTypes := by
      rw [Module.addCode, tabulate_concat_none _ (by simp [Instruction.valueType?, silent])]
      exact arranged.resultTypes }

theorem addValue {opcode : Opcode} (type : ResultId) {operands : List Operand}
    (computes : Instruction.computes ⟨opcode, some m.freshId, some type, operands⟩ = true)
    (fill : Operand.Fill opcode.slot operands) (numbers : ∀ o ∈ operands, o.isNumber = true) :
    (m.addValue opcode type operands).Arranged := by
  obtain ⟨home, typed⟩ := Instruction.of_computes computes
  exact { arranged with
    code := forall_mem_concat arranged.code ⟨home, typed.symm, fill, numbers⟩
    resultTypes := by
      have decoded :
          Instruction.valueType? ⟨opcode, some m.freshId, some type, operands⟩ = some type :=
        if_pos computes
      rw [Module.addValue, tabulate_concat_some _ rfl decoded, ← arranged.resultTypes] }

theorem addAnnotation {i : Instruction} (home : i.opcode.home? = some .annotations) :
    (m.addAnnotation i).Arranged :=
  { arranged with annotations := forall_mem_concat arranged.annotations home }

theorem addName {i : Instruction} (home : i.opcode.home? = some .names) : (m.addName i).Arranged :=
  { arranged with names := forall_mem_concat arranged.names home }

theorem declareType (d : TypeDecl) : (Build.declareType d m).2.Arranged := by
  unfold Build.declareType
  split
  · exact arranged
  · exact arranged.addType d

theorem declareConstant (d : ConstDecl) : (Build.declareConstant d m).2.Arranged := by
  unfold Build.declareConstant
  split
  · exact arranged
  · exact arranged.addConstant d

theorem edit (e : Edit) : (m.edit e).Arranged := by
  cases e with
  | freshId => exact { arranged with }
  | enableCapability capability => exact arranged.addCapability capability
  | setMemoryModel addressing memory => exact { arranged with }
  | addEntryPoint entry => exact { arranged with }
  | declareType d => exact arranged.declareType d
  | wordConstant value => exact (arranged.declareType _).declareConstant _
  | floatConstant value => exact (arranged.declareType _).declareConstant _
  | compositeConstant type parts => exact arranged.declareConstant _
  | declareVariable d => exact arranged.addVariable d
  | beginFunction resultType id functionType =>
    exact arranged.addCode rfl ⟨rfl, ⟨rfl, rfl, trivial⟩, by simp [Operand.isNumber]⟩ rfl
  | endFunction => exact arranged.addCode rfl ⟨rfl, trivial, by simp⟩ rfl
  | label id => exact arranged.addCode rfl ⟨rfl, trivial, by simp⟩ rfl
  | returnVoid => exact arranged.addCode rfl ⟨rfl, trivial, by simp⟩ rfl
  | load type pointer =>
    exact arranged.addValue type rfl ⟨rfl, trivial⟩ (by simp [Operand.isNumber])
  | store pointer object =>
    exact arranged.addCode rfl ⟨rfl, ⟨rfl, rfl, trivial⟩, by simp [Operand.isNumber]⟩ rfl
  | compositeInsert type object composite indices =>
    exact arranged.addValue type rfl ⟨rfl, rfl, Operand.fill_literals (fun _ => rfl) indices⟩
      (by simp [Operand.isNumber])
  | vectorShuffle type first second selectors =>
    exact arranged.addValue type rfl ⟨rfl, rfl, Operand.fill_literals (fun _ => rfl) selectors⟩
      (by simp [Operand.isNumber])
  | accessChain type base indices =>
    exact arranged.addValue type rfl (Operand.fill_refs (fun _ => rfl) (base :: indices))
      (by simp [Operand.isNumber])
  | decorate target decoration operands => exact arranged.addAnnotation rfl
  | decorateMember target member builtIn => exact arranged.addAnnotation rfl
  | name target text => exact arranged.addName rfl
  | nameMember target member text => exact arranged.addName rfl

end Arranged

theorem Arranged.replay {m : Module} (arranged : m.Arranged) (history : List Edit) :
    (m.replay history).Arranged := by
  induction history generalizing m with
  | nil => exact arranged
  | cons e history ih => exact ih (arranged.edit e)

theorem Reachable.arranged {m : Module} (reachable : m.Reachable) : m.Arranged := by
  obtain ⟨history, rfl⟩ := reachable
  exact arranged_empty.replay history

/-! Lines. -/

section Lines
variable (names : Naming)

def capabilityWords (c : Capability) : List (List Char) :=
  [(Opcode.opCapability.text names).toList, (names.capability c).toList]

def memoryModelWords (p : AddressingModel × MemoryModel) : List (List Char) :=
  [(Opcode.opMemoryModel.text names).toList, (names.addressing p.1).toList,
    (names.memory p.2).toList]

def entryPointWords (e : EntryPoint) : List (List Char) :=
  (Opcode.opEntryPoint.text names).toList :: (names.execution e.model).toList ::
    e.id.text.toList :: ("\"" ++ e.name ++ "\"").toList :: e.interfaces.map fun id => id.text.toList

def linesOf (m : Module) : Section → List (List Char)
  | .capabilities => m.capabilities.map fun c => [' '].intercalate (capabilityWords names c)
  | .memoryModel => m.memoryModel.toList.map fun p => [' '].intercalate (memoryModelWords names p)
  | .entryPoints => m.entryPoints.map fun e => [' '].intercalate (entryPointWords names e)
  | .names => m.names.map fun i => (i.text names).toList
  | .annotations => m.annotations.map fun i => (i.text names).toList
  | .globals => m.globals.map fun i => (i.text names).toList
  | .code => m.code.map fun i => (i.text names).toList

def boundLine (m : Module) : List Char := ("; Bound: " ++ m.bound.toNat.repr).toList

theorem lines_eq (m : Module) :
    (m.lines names).map String.toList = m.boundLine :: Section.all.flatMap (m.linesOf names) := by
  have capability (c : Capability) : ("OpCapability " ++ names.capability c).toList =
      [' '].intercalate (capabilityWords names c) := by
    simp [capabilityWords, Opcode.text, names.opCapability]
  have memoryModel (p : AddressingModel × MemoryModel) :
      ("OpMemoryModel " ++ names.addressing p.1 ++ " " ++ names.memory p.2).toList =
        [' '].intercalate (memoryModelWords names p) := by
    simp [memoryModelWords, Opcode.text, names.opMemoryModel]
  have entryPoint (e : EntryPoint) :
      (e.text names).toList = [' '].intercalate (entryPointWords names e) := by
    rw [EntryPoint.text, String.toList_intercalate]
    simp [entryPointWords, Opcode.text, names.opEntryPoint, Function.comp_def]
  simp only [lines, preamble, instructions, Section.all, linesOf, boundLine, List.map_cons,
    List.map_append, List.map_map, Function.comp_def, List.flatMap_cons, List.flatMap_nil,
    capability, memoryModel, entryPoint, List.append_nil, List.append_assoc]

theorem toList_text (m : Module) : (m.text names).toList =
    (m.boundLine :: Section.all.flatMap (m.linesOf names)).flatMap (· ++ ['\n']) := by
  rw [← lines_eq, text, String.toList_join]
  simp [List.flatMap_map]

end Lines

section Reading
variable {names : Naming} (clear : names.Clear)
include clear

theorem not_mem_capabilityWords (c : Capability) {mark : Char} (blank : IsBlank mark) :
    ∀ w ∈ capabilityWords names c, mark ∉ w := by
  simp only [capabilityWords, List.forall_mem_cons, List.not_mem_nil, false_implies, implies_true,
    and_true]
  exact ⟨Opcode.not_mem_text _ clear blank, clear.capability.word c mark blank⟩

theorem not_mem_memoryModelWords (p : AddressingModel × MemoryModel) {mark : Char}
    (blank : IsBlank mark) : ∀ w ∈ memoryModelWords names p, mark ∉ w := by
  simp only [memoryModelWords, List.forall_mem_cons, List.not_mem_nil, false_implies, implies_true,
    and_true]
  exact ⟨Opcode.not_mem_text _ clear blank, clear.addressing.word p.1 mark blank,
    clear.memory.word p.2 mark blank⟩

theorem Arranged.sectionOf?_eq {m : Module} (arranged : m.Arranged) (s : Section) :
    ∀ line ∈ m.linesOf names s, sectionOf? names line = some s := by
  intro line member
  cases s with
  | capabilities =>
    obtain ⟨c, -, rfl⟩ := List.mem_map.1 member
    exact sectionOf?_intercalate clear rfl _
  | memoryModel =>
    obtain ⟨p, -, rfl⟩ := List.mem_map.1 member
    exact sectionOf?_intercalate clear rfl _
  | entryPoints =>
    obtain ⟨e, -, rfl⟩ := List.mem_map.1 member
    exact sectionOf?_intercalate clear rfl _
  | names =>
    obtain ⟨i, inside, rfl⟩ := List.mem_map.1 member
    exact sectionOf?_text clear (arranged.names i inside)
  | annotations =>
    obtain ⟨i, inside, rfl⟩ := List.mem_map.1 member
    exact sectionOf?_text clear (arranged.annotations i inside)
  | globals =>
    obtain ⟨i, inside, rfl⟩ := List.mem_map.1 member
    exact sectionOf?_text clear (arranged.globals i inside).home
  | code =>
    obtain ⟨i, inside, rfl⟩ := List.mem_map.1 member
    exact sectionOf?_text clear (arranged.code i inside).1

theorem Arranged.filter_lines {m : Module} (arranged : m.Arranged) (s : Section) :
    (Section.all.flatMap (m.linesOf names)).filter (fun line => sectionOf? names line = some s) =
      m.linesOf names s := by
  have pick (ss : List Section) : (ss.flatMap (m.linesOf names)).filter
      (fun line => sectionOf? names line = some s) =
        (ss.filter (· = s)).flatMap (m.linesOf names) := by
    induction ss with
    | nil => rfl
    | cons t ss ih =>
      rw [List.flatMap_cons, List.filter_append, ih]
      by_cases same : t = s
      · have all : (m.linesOf names t).filter (fun line => sectionOf? names line = some s) =
            m.linesOf names t :=
          List.filter_eq_self.2 fun line member => by
            simp [arranged.sectionOf?_eq clear t line member, same]
        rw [all, List.filter_cons_of_pos (by simpa using same), List.flatMap_cons]
      · have none : (m.linesOf names t).filter (fun line => sectionOf? names line = some s) = [] :=
          List.filter_eq_nil_iff.2 fun line member => by
            simp [arranged.sectionOf?_eq clear t line member, same]
        rw [none, List.filter_cons_of_neg (by simpa using same), List.nil_append]
  rw [pick]
  cases s <;> simp [Section.all]

end Reading

/-- No string breaks a line, and no constant is a NaN. -/
structure Readable (m : Module) : Prop where
  entryPoints : ∀ e ∈ m.entryPoints, '\n' ∉ e.name.toList
  strings : ∀ i ∈ m.names ++ m.annotations, ∀ o ∈ i.operands, o.isUnbroken = true
  constants : ∀ i ∈ m.globals, ∀ o ∈ i.operands, o.isNumber = true

instance (m : Module) : Decidable m.Readable :=
  decidable_of_iff ((∀ e ∈ m.entryPoints, '\n' ∉ e.name.toList) ∧
      (∀ i ∈ m.names ++ m.annotations, ∀ o ∈ i.operands, o.isUnbroken = true) ∧
      ∀ i ∈ m.globals, ∀ o ∈ i.operands, o.isNumber = true)
    ⟨fun ⟨entryPoints, strings, constants⟩ => ⟨entryPoints, strings, constants⟩,
      fun readable => ⟨readable.entryPoints, readable.strings, readable.constants⟩⟩

section Unbroken
variable {names : Naming} (clear : names.Clear) {m : Module} (arranged : m.Arranged)
include clear arranged

theorem Readable.unbroken_linesOf (readable : m.Readable) (s : Section) :
    ∀ line ∈ m.linesOf names s, '\n' ∉ line := by
  intro line member
  cases s with
  | capabilities =>
    obtain ⟨c, -, rfl⟩ := List.mem_map.1 member
    exact not_mem_intercalate (not_mem_capabilityWords clear c (.inr rfl))
  | memoryModel =>
    obtain ⟨p, -, rfl⟩ := List.mem_map.1 member
    exact not_mem_intercalate (not_mem_memoryModelWords clear p (.inr rfl))
  | entryPoints =>
    obtain ⟨e, inside, rfl⟩ := List.mem_map.1 member
    refine not_mem_intercalate ?_
    simp only [entryPointWords, List.forall_mem_cons, List.forall_mem_map]
    refine ⟨Opcode.not_mem_text _ clear (.inr rfl), clear.execution.word e.model _ (.inr rfl),
      ResultId.not_mem_text _ (.inr rfl), ?_, fun id _ => ResultId.not_mem_text id (.inr rfl)⟩
    simpa using readable.entryPoints e inside
  | names =>
    obtain ⟨i, inside, rfl⟩ := List.mem_map.1 member
    exact Instruction.newline_not_mem_text clear
      (readable.strings i (List.mem_append_left _ inside))
  | annotations =>
    obtain ⟨i, inside, rfl⟩ := List.mem_map.1 member
    exact Instruction.newline_not_mem_text clear
      (readable.strings i (List.mem_append_right _ inside))
  | globals =>
    obtain ⟨i, inside, rfl⟩ := List.mem_map.1 member
    exact Instruction.newline_not_mem_text clear fun o here =>
      Operand.isUnbroken_of_slot ((arranged.globals i inside).fill.isSome o here)
  | code =>
    obtain ⟨i, inside, rfl⟩ := List.mem_map.1 member
    exact Instruction.newline_not_mem_text clear fun o here =>
      Operand.isUnbroken_of_slot ((arranged.code i inside).2.fill.isSome o here)

theorem Readable.unbroken (readable : m.Readable) :
    ∀ line ∈ m.boundLine :: Section.all.flatMap (m.linesOf names), '\n' ∉ line := by
  rw [List.forall_mem_cons]
  constructor
  · simpa [boundLine] using not_mem_repr m.bound.toNat (.inr rfl)
  · intro line member
    obtain ⟨s, -, inside⟩ := List.mem_flatMap.1 member
    exact readable.unbroken_linesOf clear arranged s line inside

end Unbroken

/-! What the lines of a section say. -/

section Sections
variable {m m' : Module}

theorem bound_eq_of_line (same : m.boundLine = m'.boundLine) : m.bound = m'.bound :=
  eq_of_repr (by simpa [boundLine] using same)

theorem Readable.legible (readable : m.Readable) (arranged : m.Arranged) {i : Instruction}
    (member : i ∈ m.globals) : i.Legible where
  typed := (arranged.globals i member).typed
  fill := (arranged.globals i member).fill
  numbers := readable.constants i member

variable {names : Naming} (clear : names.Clear)
include clear

theorem capabilities_eq_of_lines
    (same : m.linesOf names .capabilities = m'.linesOf names .capabilities) :
    m.capabilities = m'.capabilities := by
  refine eq_of_map_eq (fun c _ c' _ line => ?_) same
  have words := eq_of_intercalate (not_mem_capabilityWords clear c (.inl rfl))
    (not_mem_capabilityWords clear c' (.inl rfl)) (List.cons_ne_nil _ _) (List.cons_ne_nil _ _) line
  simp only [capabilityWords, List.cons.injEq, true_and, and_true] at words
  exact clear.capability.distinct (String.toList_inj.1 words)

theorem memoryModel_eq_of_lines
    (same : m.linesOf names .memoryModel = m'.linesOf names .memoryModel) :
    m.memoryModel = m'.memoryModel := by
  have models : m.memoryModel.toList = m'.memoryModel.toList := by
    refine eq_of_map_eq (fun p _ p' _ line => ?_) same
    have words := eq_of_intercalate (not_mem_memoryModelWords clear p (.inl rfl))
      (not_mem_memoryModelWords clear p' (.inl rfl)) (List.cons_ne_nil _ _) (List.cons_ne_nil _ _)
      line
    simp only [memoryModelWords, List.cons.injEq, true_and, and_true] at words
    exact Prod.ext (clear.addressing.distinct (String.toList_inj.1 words.1))
      (clear.memory.distinct (String.toList_inj.1 words.2))
  have heads := congrArg List.head? models
  rwa [Option.head?_toList, Option.head?_toList] at heads

end Sections

section Same
variable {m m' : Module}

theorem zeroWithin_congr (types : m.types = m'.types) (constants : m.constants = m'.constants)
    (depth : Nat) : m.zeroWithin depth = m'.zeroWithin depth := by
  induction depth with
  | zero => rfl
  | succ depth ih =>
    funext type
    unfold zeroWithin
    simp only [typeDecl?, constDecl?, types, constants, ih]

theorem boot_congr (bound : m.bound = m'.bound) (globals : m.globals = m'.globals)
    (types : m.types = m'.types) (constants : m.constants = m'.constants)
    (vars : m.vars = m'.vars) : Machine.boot m = Machine.boot m' := by
  have zero : m.zero = m'.zero := by
    funext type
    rw [Module.zero, Module.zero, bound, zeroWithin_congr types constants]
  have declare : Machine.declare m = Machine.declare m' := by
    funext s i
    unfold Machine.declare
    simp only [typeDecl?, constDecl?, varDecl?, types, constants, vars, zero]
  rw [Machine.boot, Machine.boot, globals, declare]

end Same

/-- What two modules with the same text have in common. -/
structure SameProgram (m m' : Module) : Prop where
  bound : m.bound = m'.bound
  capabilities : m.capabilities = m'.capabilities
  memoryModel : m.memoryModel = m'.memoryModel
  globals : m.globals = m'.globals
  code : m.code = m'.code
  type : ∀ id, m.typeDecl? id = m'.typeDecl? id
  constant : ∀ id, m.constDecl? id = m'.constDecl? id
  var : ∀ id, m.varDecl? id = m'.varDecl? id
  value : ∀ id, m.resultType? id = m'.resultType? id
  run : ∀ entry, m.run entry = m'.run entry

theorem sameProgram_of_sections {m m' : Module} (arranged : m.Arranged) (arranged' : m'.Arranged)
    (bound : m.bound = m'.bound) (capabilities : m.capabilities = m'.capabilities)
    (memoryModel : m.memoryModel = m'.memoryModel) (globals : m.globals = m'.globals)
    (code : m.code = m'.code) : m.SameProgram m' := by
  have types : m.types = m'.types := by rw [arranged.types, globals, arranged'.types]
  have constants : m.constants = m'.constants := by
    rw [arranged.constants, globals, arranged'.constants]
  have vars : m.vars = m'.vars := by rw [arranged.vars, globals, arranged'.vars]
  have resultTypes : m.resultTypes = m'.resultTypes := by
    rw [arranged.resultTypes, code, arranged'.resultTypes]
  refine ⟨bound, capabilities, memoryModel, globals, code, ?_, ?_, ?_, ?_, ?_⟩
  · intro id
    rw [typeDecl?, types, typeDecl?]
  · intro id
    rw [constDecl?, constants, constDecl?]
  · intro id
    rw [varDecl?, vars, varDecl?]
  · intro id
    rw [resultType?, resultTypes, resultType?]
  · intro entry
    rw [Module.run, Module.run, boot_congr bound globals types constants vars]
    unfold Exec.call
    rw [code]

/-- Two modules with the same text declare and compute the same and give the same answer wherever
they are started, although they may differ in how things are named and decorated. -/
theorem text_determines_program {names : Naming} (clear : names.Clear) {m m' : Module}
    (reachable : m.Reachable) (reachable' : m'.Reachable) (readable : m.Readable)
    (readable' : m'.Readable) (same : m.text names = m'.text names) : m.SameProgram m' := by
  have arranged := reachable.arranged
  have arranged' := reachable'.arranged
  have texts := congrArg String.toList same
  rw [toList_text, toList_text] at texts
  obtain ⟨boundLines, rest⟩ := List.cons.inj
    (eq_of_joined (readable.unbroken clear arranged) (readable'.unbroken clear arranged') texts)
  -- The lines are the same, and the first word of a line tells its section.
  have sections (s : Section) : m.linesOf names s = m'.linesOf names s := by
    rw [← arranged.filter_lines clear s, rest, arranged'.filter_lines clear s]
  refine sameProgram_of_sections arranged arranged' (bound_eq_of_line boundLines)
    (capabilities_eq_of_lines clear (sections _)) (memoryModel_eq_of_lines clear (sections _)) ?_ ?_
  · refine eq_of_map_eq (fun i member j member' => ?_) (sections .globals)
    exact (readable.legible arranged member).eq_of_text clear (readable'.legible arranged' member')
  · refine eq_of_map_eq (fun i member j member' => ?_) (sections .code)
    exact (arranged.code i member).2.eq_of_text clear (arranged'.code j member').2

def decorated (operands : List Operand) : Module :=
  empty.replay [.enableCapability .shader, .enableCapability (.other 43),
    .setMemoryModel .logical .glsl450, .floatConstant ⟨0x3f800000⟩, .decorate ⟨2⟩ .block operands,
    .declareType .void, .declareType (.function ⟨3⟩ []), .beginFunction ⟨3⟩ ⟨5⟩ ⟨4⟩, .label ⟨6⟩,
    .returnVoid, .endFunction]

/-- One string with quotes in it is written like two strings. -/
theorem oneString_sameProgram_twoStrings :
    decorated [.string "a\" \"b"] ≠ decorated [.string "a", .string "b"] ∧
    (decorated [.string "a\" \"b"]).text = (decorated [.string "a", .string "b"]).text ∧
    (decorated [.string "a\" \"b"]).Readable ∧ (decorated [.string "a", .string "b"]).Readable ∧
    (decorated [.string "a\" \"b"]).SameProgram (decorated [.string "a", .string "b"]) := by
  have differ : decorated [.string "a\" \"b"] ≠ decorated [.string "a", .string "b"] := by
    decide +kernel
  have same :
      (decorated [.string "a\" \"b"]).text = (decorated [.string "a", .string "b"]).text := by
    decide +kernel
  have readable : (decorated [.string "a\" \"b"]).Readable := by decide +kernel
  have readable' : (decorated [.string "a", .string "b"]).Readable := by decide +kernel
  exact ⟨differ, same, readable, readable',
    text_determines_program Naming.standard_clear ⟨_, rfl⟩ ⟨_, rfl⟩ readable readable' same⟩

end Module
end Shader
