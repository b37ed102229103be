import Mathlib.Data.List.Nodup
import Shader.Module.Text
import Shader.Proofs.DecimalText

/-!
What can be read from one line, if the names of enumerants are words and no two of one vocabulary are
alike. Main statements: the opcode of a line can be read whatever stands behind it, and a line of an
instruction that has the shape of its opcode, without NaNs, belongs to that instruction only.
-/

namespace Shader
open Chars (before after before_append after_append before_of_absent)

def IsBlank (c : Char) : Prop := c = ' ' ∨ c = '\n'

/-- Names that are words, each for one thing only. -/
structure Tells {α : Type} (name : α → String) : Prop where
  distinct : Function.Injective name
  word : ∀ a c, IsBlank c → c ∉ (name a).toList

/-- What is asked of a naming, the same of each vocabulary. A name may look like an id, a number or a
name of another vocabulary. -/
structure Naming.Clear (names : Naming) : Prop where
  opcode : Tells names.opcode
  storageClass : Tells names.storageClass
  builtIn : Tells names.builtIn
  decoration : Tells names.decoration
  capability : Tells names.capability
  addressing : Tells names.addressing
  memory : Tells names.memory
  execution : Tells names.execution

theorem not_mem_repr (n : Nat) {c : Char} (blank : IsBlank c) : c ∉ n.repr.toList := by
  refine Decimal.not_mem_of_digits (fun _ member => Decimal.isDigit_of_mem_repr member) ?_
  rcases blank with rfl | rfl <;> rfl

theorem eq_of_repr {a b : UInt32} (same : a.toNat.repr.toList = b.toNat.repr.toList) : a = b := by
  have words : a.toNat = b.toNat := by
    rw [← Decimal.ofDigitChars_repr a.toNat, same, Decimal.ofDigitChars_repr]
  exact UInt32.toNat_inj.1 words

theorem not_mem_of_isName {text : String} (named : isName text = true) {c : Char}
    (blank : IsBlank c) : c ∉ text.toList := by
  intro member
  have letter := List.all_eq_true.1 (Bool.and_eq_true_iff.1 named).2 c member
  rcases blank with rfl | rfl <;> cases letter

theorem isDigit_of_isAlpha {c : Char} (letter : c.isAlpha = true) : c.isDigit = false := by
  rw [Bool.eq_false_iff]
  intro digit
  have most : c.val ≤ '9'.val := of_decide_eq_true (Bool.and_eq_true_iff.1 digit).2
  rcases Bool.or_eq_true_iff.1 letter with upper | lower
  · have least : 'A'.val ≤ c.val := (of_decide_eq_true upper).1
    exact absurd (UInt32.le_trans least most) (by decide)
  · have least : 'a'.val ≤ c.val := of_decide_eq_true (Bool.and_eq_true_iff.1 lower).1
    exact absurd (UInt32.le_trans least most) (by decide)

theorem isName_repr (n : Nat) : isName n.repr = false := by
  rw [Bool.eq_false_iff]
  intro named
  obtain ⟨c, head, letter⟩ := (Option.any_eq_true _ _).1 (Bool.and_eq_true_iff.1 named).1
  have digit := Decimal.isDigit_of_mem_repr (List.mem_of_head? head)
  rw [isDigit_of_isAlpha letter] at digit
  cases digit

namespace Vocabulary
variable (α : Type) [Vocabulary α]

theorem tells : Tells (Enumerant.name : α → String) where
  distinct a b same := by
    rcases listed_or_other a with listed | ⟨code, rfl⟩ <;>
      rcases listed_or_other b with listed' | ⟨code', rfl⟩
    · exact List.inj_on_of_nodup_map names_nodup listed listed' same
    · have named := isName_of_listed a listed
      rw [same, name_other, isName_repr] at named
      cases named
    · have named := isName_of_listed b listed'
      rw [← same, name_other, isName_repr] at named
      cases named
    · rw [name_other, name_other] at same
      rw [eq_of_repr (congrArg String.toList same)]
  word a c blank := by
    rcases listed_or_other a with listed | ⟨code, rfl⟩
    · exact not_mem_of_isName (isName_of_listed a listed) blank
    · rw [name_other]
      exact not_mem_repr _ blank

end Vocabulary

theorem Naming.standard_clear : standard.Clear where
  opcode := Vocabulary.tells Opcode
  storageClass := Vocabulary.tells StorageClass
  builtIn := Vocabulary.tells BuiltIn
  decoration := Vocabulary.tells Decoration
  capability := Vocabulary.tells Capability
  addressing := Vocabulary.tells AddressingModel
  memory := Vocabulary.tells MemoryModel
  execution := Vocabulary.tells ExecutionModel

namespace ResultId

theorem toList_text (id : ResultId) : id.text.toList = '%' :: id.word.toNat.repr.toList := by
  rw [text, String.toList_append]
  rfl

theorem text_injective {a b : ResultId} (same : a.text.toList = b.text.toList) : a = b := by
  simp only [toList_text, List.cons.injEq, true_and] at same
  exact ext_index (congrArg UInt32.toNat (eq_of_repr same))

theorem not_mem_text (id : ResultId) {c : Char} (blank : IsBlank c) : c ∉ id.text.toList := by
  rw [toList_text, List.mem_cons, not_or]
  refine ⟨?_, not_mem_repr _ blank⟩
  rcases blank with rfl | rfl <;> decide

end ResultId

inductive Slot where
  | reference
  | number
  | storageClass
  | control

/-- The shapes of the instructions that declare or compute something. -/
def Opcode.slot : Opcode → Nat → Slot
  | .opTypeInt, _ | .opTypeFloat, _ | .opTypeVector, 1 | .opConstant, _ => .number
  | .opVectorShuffle, _ + 2 | .opCompositeInsert, _ + 2 => .number
  | .opTypePointer, 0 | .opVariable, _ => .storageClass
  | .opFunction, 0 => .control
  | _, _ => .reference

def Opcode.isTyped : Opcode → Bool
  | .opConstant | .opConstantComposite | .opVariable | .opFunction | .opLoad | .opAccessChain
  | .opCompositeInsert | .opVectorShuffle => true
  | _ => false

theorem Binary32.text_ne_repr {x : Binary32} (number : x.isNaN = false) (word : UInt32) :
    x.text.toList ≠ word.toNat.repr.toList := by
  intro same
  obtain ⟨mark, inside, marked⟩ := exists_mark_text number
  rw [same] at inside
  rw [Decimal.isDigit_of_mem_repr inside] at marked
  cases marked

namespace Operand

/-- The places for an operand. Strings and what is said with them in a decoration have none. -/
def slot? : Operand → Option Slot
  | ref _ => some .reference
  | literal _ | float _ => some .number
  | storageClass _ => some .storageClass
  | noControl => some .control
  | string _ | builtIn _ | decoration _ => none

def Fill : (Nat → Slot) → List Operand → Prop
  | _, [] => True
  | slot, o :: os => o.slot? = some (slot 0) ∧ Fill (fun n => slot (n + 1)) os

def isUnbroken : Operand → Bool
  | string text => '\n' ∉ text.toList
  | _ => true

def isNumber : Operand → Bool
  | float x => !x.isNaN
  | _ => true

theorem fill_of_forall {slot : Nat → Slot} {kind : Slot} {os : List Operand}
    (same : ∀ n, slot n = kind) (all : ∀ o ∈ os, o.slot? = some kind) : Fill slot os := by
  induction os generalizing slot with
  | nil => trivial
  | cons o os ih =>
    rw [List.forall_mem_cons] at all
    exact ⟨by rw [same, all.1], ih (fun n => same (n + 1)) all.2⟩

theorem fill_refs {slot : Nat → Slot} (same : ∀ n, slot n = .reference) (ids : List ResultId) :
    Fill slot (ids.map ref) := fill_of_forall same (by simp [slot?])

theorem fill_literals {slot : Nat → Slot} (same : ∀ n, slot n = .number) (words : List UInt32) :
    Fill slot (words.map literal) := fill_of_forall same (by simp [slot?])

theorem Fill.isSome {slot : Nat → Slot} {os : List Operand} (fill : Fill slot os) :
    ∀ o ∈ os, o.slot?.isSome = true := by
  induction os generalizing slot with
  | nil => simp
  | cons o os ih => exact List.forall_mem_cons.2 ⟨by rw [fill.1, Option.isSome_some], ih fill.2⟩

theorem isUnbroken_of_slot {o : Operand} (placed : o.slot?.isSome = true) :
    o.isUnbroken = true := by
  cases o with
  | string => cases placed
  | _ => rfl

section Text
variable {names : Naming} (clear : names.Clear)

include clear

theorem text_injective {o o' : Operand} (number : o.isNumber = true) (number' : o'.isNumber = true)
    {kind : Slot} (placed : o.slot? = some kind) (placed' : o'.slot? = some kind)
    (same : (o.text names).toList = (o'.text names).toList) : o = o' := by
  have places : o.slot? = o'.slot? := placed.trans placed'.symm
  cases o with
  | ref id =>
    cases o' with
    | ref id' => rw [ResultId.text_injective same]
    | _ => cases places
  | literal word =>
    cases o' with
    | literal word' => rw [eq_of_repr same]
    | float x' => exact absurd same.symm (Binary32.text_ne_repr (by simpa [isNumber] using number') _)
    | _ => cases places
  | float x =>
    have real : x.isNaN = false := by simpa [isNumber] using number
    cases o' with
    | literal word' => exact absurd same (Binary32.text_ne_repr real _)
    | float x' => rw [Binary32.text_injective real (by simpa [isNumber] using number') same]
    | _ => cases places
  | storageClass value =>
    cases o' with
    | storageClass value' => rw [clear.storageClass.distinct (String.toList_inj.1 same)]
    | _ => cases places
  | noControl =>
    cases o' with
    | noControl => rfl
    | _ => cases places
  | string | builtIn | decoration => cases placed

theorem Fill.eq_of_texts {slot : Nat → Slot} {os os' : List Operand} (fill : Fill slot os)
    (fill' : Fill slot os') (numbers : ∀ o ∈ os, o.isNumber = true)
    (numbers' : ∀ o ∈ os', o.isNumber = true)
    (same : os.map (fun o => (o.text names).toList) = os'.map fun o => (o.text names).toList) :
    os = os' := by
  induction os generalizing slot os' with
  | nil => exact (List.map_eq_nil_iff.1 same.symm).symm
  | cons o os ih =>
    cases os' with
    | nil => cases same
    | cons o' os' =>
      obtain ⟨first, others⟩ := List.cons.inj same
      rw [List.forall_mem_cons] at numbers numbers'
      rw [text_injective clear numbers.1 numbers'.1 fill.1 fill'.1 first,
        ih fill.2 fill'.2 numbers.2 numbers'.2 others]

theorem not_mem_text {o : Operand} (placed : o.slot?.isSome = true) (number : o.isNumber = true)
    {c : Char} (blank : IsBlank c) : c ∉ (o.text names).toList := by
  cases o with
  | ref id => exact ResultId.not_mem_text id blank
  | literal word => exact not_mem_repr _ blank
  | float x =>
    intro member
    have known := Binary32.mem_text (by simpa [isNumber] using number) member
    rcases blank with rfl | rfl <;> revert known <;> decide
  | storageClass value => exact clear.storageClass.word value c blank
  | noControl => rcases blank with rfl | rfl <;> simp [text]
  | string | builtIn | decoration => cases placed

theorem newline_not_mem_text {o : Operand} (unbroken : o.isUnbroken = true) :
    '\n' ∉ (o.text names).toList := by
  cases o with
  | float x =>
    by_cases number : x.isNaN = false
    · exact not_mem_text clear (o := .float x) rfl (by simp [isNumber, number]) (.inr rfl)
    · have text : x.text = "NaN" := if_pos (by simpa using number)
      simp [Operand.text, text]
  | string text => simpa [Operand.text, isUnbroken] using unbroken
  | builtIn value => exact clear.builtIn.word value _ (.inr rfl)
  | decoration value => exact clear.decoration.word value _ (.inr rfl)
  | _ => exact not_mem_text clear rfl rfl (.inr rfl)

end Text

end Operand

namespace Opcode
variable (op : Opcode) (names : Naming)

theorem toList_text : (op.text names).toList = 'O' :: 'p' :: (names.opcode op).toList := by
  rw [text, String.toList_append]
  rfl

variable {names} (clear : names.Clear)
include clear

theorem text_injective {a b : Opcode} (same : (a.text names).toList = (b.text names).toList) :
    a = b := by
  simp only [toList_text, List.cons.injEq, true_and] at same
  exact clear.opcode.distinct (String.toList_inj.1 same)

theorem not_mem_text {c : Char} (blank : IsBlank c) : c ∉ (op.text names).toList := by
  rw [toList_text, List.mem_cons, List.mem_cons, not_or, not_or]
  refine ⟨?_, ?_, clear.opcode.word op c blank⟩ <;> rcases blank with rfl | rfl <;> decide

end Opcode

theorem eq_of_map_eq {α β : Type} {f : α → β} {as bs : List α}
    (apart : ∀ a ∈ as, ∀ b ∈ bs, f a = f b → a = b) (same : as.map f = bs.map f) : as = bs := by
  induction as generalizing bs with
  | nil => exact (List.map_eq_nil_iff.1 same.symm).symm
  | cons a as ih =>
    cases bs with
    | nil => cases same
    | cons b bs =>
      obtain ⟨first, others⟩ := List.cons.inj same
      rw [apart a List.mem_cons_self b List.mem_cons_self first,
        ih (fun x inside y inside' => apart x (List.mem_cons_of_mem a inside) y
          (List.mem_cons_of_mem b inside')) others]

theorem eq_of_intercalate {ws ws' : List (List Char)} (words : ∀ w ∈ ws, ' ' ∉ w)
    (words' : ∀ w ∈ ws', ' ' ∉ w) (some : ws ≠ []) (some' : ws' ≠ [])
    (same : [' '].intercalate ws = [' '].intercalate ws') : ws = ws' := by
  rw [← List.splitOn_intercalate ' ' words some, same, List.splitOn_intercalate ' ' words' some']

theorem not_mem_intercalate {ws : List (List Char)} (unbroken : ∀ w ∈ ws, '\n' ∉ w) :
    '\n' ∉ [' '].intercalate ws := by
  induction ws with
  | nil => simp
  | cons w ws ih =>
    cases ws with
    | nil => simpa using unbroken
    | cons v ws =>
      rw [List.forall_mem_cons] at unbroken
      simp only [List.intercalate_cons_cons, List.mem_append, List.mem_singleton, not_or]
      exact ⟨⟨unbroken.1, by decide⟩, ih unbroken.2⟩

namespace Instruction
variable {names : Naming}

def charWords (i : Instruction) (names : Naming) : List (List Char) :=
  (i.words names).map String.toList

theorem toList_text (i : Instruction) :
    (i.text names).toList = [' '].intercalate (i.charWords names) :=
  String.toList_intercalate

/-- Instructions that have the shape of their opcode. -/
structure Legible (i : Instruction) : Prop where
  typed : i.resultType.isSome = i.opcode.isTyped
  fill : Operand.Fill i.opcode.slot i.operands
  numbers : ∀ o ∈ i.operands, o.isNumber = true

theorem charWords_eq (i : Instruction) : i.charWords names =
    i.result.elim [] (fun id => [id.text.toList, ['=']]) ++ (i.opcode.text names).toList ::
      (i.resultType.elim [] (fun type => [type.text.toList]) ++
        i.operands.map fun o => (o.text names).toList) := by
  unfold charWords words
  cases i.result <;> cases i.resultType <;> simp

theorem result_eq_of_charWords {i j : Instruction} (same : i.charWords names = j.charWords names) :
    i.result = j.result := by
  rw [charWords_eq, charWords_eq] at same
  cases here : i.result with
  | none =>
    cases there : j.result with
    | none => rfl
    | some id => simp [here, there, Opcode.toList_text, ResultId.toList_text] at same
  | some id =>
    cases there : j.result with
    | none => simp [here, there, Opcode.toList_text, ResultId.toList_text] at same
    | some id' =>
      rw [here, there] at same
      rw [ResultId.text_injective (List.cons.inj same).1]

variable (clear : names.Clear)
include clear

theorem Legible.eq_of_charWords {i j : Instruction} (legible : i.Legible) (legible' : j.Legible)
    (same : i.charWords names = j.charWords names) : i = j := by
  have results := result_eq_of_charWords same
  rw [charWords_eq, charWords_eq, results] at same
  obtain ⟨opcodeText, behind⟩ := List.cons.inj (List.append_cancel_left same)
  have opcodes := Opcode.text_injective clear opcodeText
  -- The opcode says whether a type comes next, and what can stand at each place behind it.
  have both : i.resultType.isSome = j.resultType.isSome := by
    rw [legible.typed, opcodes, legible'.typed]
  have types : i.resultType = j.resultType := by
    cases here : i.resultType <;> cases there : j.resultType
    · rfl
    · simp [here, there] at both
    · simp [here, there] at both
    · rw [here, there] at behind
      rw [ResultId.text_injective (List.cons.inj behind).1]
  rw [types] at behind
  have operands : i.operands = j.operands :=
    legible.fill.eq_of_texts clear (opcodes ▸ legible'.fill) legible.numbers legible'.numbers
      (List.append_cancel_left behind)
  cases i
  cases j
  simp only at results opcodes types operands
  rw [results, opcodes, types, operands]

theorem not_mem_charWords {i : Instruction} {c : Char} (blank : IsBlank c)
    (operands : ∀ o ∈ i.operands, c ∉ (o.text names).toList) :
    ∀ w ∈ i.charWords names, c ∉ w := by
  have equals : c ∉ ['='] := by
    rcases blank with rfl | rfl <;> decide
  intro w member
  rw [charWords_eq, List.mem_append, List.mem_cons, List.mem_append, List.mem_map] at member
  rcases member with result | rfl | type | ⟨o, inside, rfl⟩
  · cases here : i.result with
    | none => simp [here] at result
    | some id =>
      simp only [here, Option.elim_some, List.mem_cons, List.not_mem_nil, or_false] at result
      rcases result with rfl | rfl
      · exact ResultId.not_mem_text id blank
      · exact equals
  · exact Opcode.not_mem_text _ clear blank
  · cases here : i.resultType with
    | none => simp [here] at type
    | some id =>
      simp only [here, Option.elim_some, List.mem_singleton] at type
      exact type ▸ ResultId.not_mem_text id blank
  · exact operands o inside

theorem Legible.eq_of_text {i j : Instruction} (legible : i.Legible) (legible' : j.Legible)
    (same : (i.text names).toList = (j.text names).toList) : i = j := by
  have words {i : Instruction} (legible : i.Legible) : ∀ w ∈ i.charWords names, ' ' ∉ w :=
    not_mem_charWords clear (.inl rfl) fun o member =>
      Operand.not_mem_text clear (legible.fill.isSome o member) (legible.numbers o member) (.inl rfl)
  rw [toList_text, toList_text] at same
  refine legible.eq_of_charWords clear legible' ?_
  exact eq_of_intercalate (words legible) (words legible') (by simp [charWords_eq])
    (by simp [charWords_eq]) same

theorem newline_not_mem_text {i : Instruction} (unbroken : ∀ o ∈ i.operands, o.isUnbroken = true) :
    '\n' ∉ (i.text names).toList := by
  rw [toList_text]
  exact not_mem_intercalate (not_mem_charWords clear (.inr rfl) fun o member =>
    Operand.newline_not_mem_text clear (unbroken o member))

end Instruction

/-- The first word of a line, or the one behind the equals sign if the line starts with an id. -/
def headWord (line : List Char) : List Char :=
  if line.head? = some '%' then before ' ' (after ' ' (after ' ' line)) else before ' ' line

theorem before_intercalate {w : List Char} (word : ' ' ∉ w) (ws : List (List Char)) :
    before ' ' ([' '].intercalate (w :: ws)) = w := by
  cases ws with
  | nil => rw [List.intercalate_singleton, before_of_absent word]
  | cons v ws =>
    rw [List.intercalate_cons_cons, List.append_assoc, List.singleton_append, before_append word]

theorem after_intercalate {w : List Char} (word : ' ' ∉ w) (v : List Char) (ws : List (List Char)) :
    after ' ' ([' '].intercalate (w :: v :: ws)) = [' '].intercalate (v :: ws) := by
  rw [List.intercalate_cons_cons, List.append_assoc, List.singleton_append, after_append word]

theorem headWord_intercalate {w : List Char} (word : ' ' ∉ w) (letter : w.head? = some 'O')
    (ws : List (List Char)) : headWord ([' '].intercalate (w :: ws)) = w := by
  obtain ⟨cs, rfl⟩ := List.head?_eq_some_iff.1 letter
  rw [headWord, if_neg (by simp), before_intercalate word]

theorem headWord_text {names : Naming} (clear : names.Clear) (i : Instruction) :
    headWord (i.text names).toList = (i.opcode.text names).toList := by
  have opcode : ' ' ∉ (i.opcode.text names).toList := Opcode.not_mem_text _ clear (.inl rfl)
  rw [Instruction.toList_text, Instruction.charWords_eq]
  cases i.result with
  | none => exact headWord_intercalate opcode (by rw [Opcode.toList_text, List.head?_cons]) _
  | some id =>
    have result : ' ' ∉ id.text.toList := ResultId.not_mem_text id (.inl rfl)
    rw [Option.elim_some, List.cons_append, List.singleton_append, headWord, if_pos,
      after_intercalate result, after_intercalate (by decide), before_intercalate opcode]
    simp [ResultId.toList_text]

end Shader
