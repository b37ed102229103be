import Mathlib.Data.Finset.Card
import Shader.Table.Lemmas

/-!
Tables against what was written to them, and tables kept in slots. Main statement: whatever the order
of the writes, a table answers like the finite map that they describe, and so does a vector of slots
that grows as ids come and counts the slots in use.
-/

namespace Shader

theorem ResultId.index_ofIndex {index : Nat} (small : index < UInt32.size) :
    (ofIndex index).index = index := UInt32.toNat_ofNat_of_lt' small

inductive TableUpdate (α : Type) where
  | insert (id : ResultId) (value : α)
  | modify (id : ResultId) (f : α → α)

namespace TableUpdate
variable {α : Type}

def inserted? : TableUpdate α → Option ResultId
  | insert id _ => some id
  | modify _ _ => none

def written (id : ResultId) (before : Option α) : TableUpdate α → Option α
  | insert other value => if other = id then some value else before
  | modify other f => if other = id then before.map f else before

end TableUpdate

def insertedIds {α : Type} (history : List (TableUpdate α)) : List ResultId :=
  history.filterMap TableUpdate.inserted?

def lastWritten {α : Type} (history : List (TableUpdate α)) (id : ResultId) : Option α :=
  history.foldl (TableUpdate.written id) none

/-- What can be learnt from a store of values under ids. -/
@[ext] structure StoreView (α : Type) where
  get : ResultId → Option α
  contains : ResultId → Bool
  displaced : ResultId → α → Option α
  size : Nat
  isEmpty : Bool
  entries : List (ResultId × α)

/-- The answers of a finite map after these writes. -/
structure StoreView.Tells {α : Type} (view : StoreView α) (history : List (TableUpdate α)) :
    Prop where
  get : ∀ id, view.get id = lastWritten history id
  absent : ∀ id, view.get id = none ↔ id ∉ insertedIds history
  contains : ∀ id, view.contains id = true ↔ (view.get id).isSome
  displaced : ∀ id value, view.displaced id value = lastWritten history id
  size : view.size = (insertedIds history).toFinset.card
  isEmpty : view.isEmpty = true ↔ (insertedIds history).toFinset.card = 0
  increasing : view.entries.Pairwise fun a b => a.1 < b.1
  entries : ∀ id value, (id, value) ∈ view.entries ↔ lastWritten history id = some value

section History
variable {α : Type}

theorem TableUpdate.isSome_written (u : TableUpdate α) (id : ResultId) (before : Option α) :
    (u.written id before).isSome ↔ before.isSome ∨ u.inserted? = some id := by
  cases u with
  | insert other value => by_cases here : other = id <;> simp [written, inserted?, here]
  | modify other f => by_cases here : other = id <;> simp [written, inserted?, here]

theorem isSome_lastWritten (history : List (TableUpdate α)) (id : ResultId) :
    (lastWritten history id).isSome ↔ id ∈ insertedIds history := by
  have run : ∀ before : Option α, (history.foldl (TableUpdate.written id) before).isSome ↔
      before.isSome ∨ id ∈ insertedIds history := by
    induction history with
    | nil =>
      intro before
      simp [insertedIds]
    | cons u history ih =>
      intro before
      rw [List.foldl_cons, ih, u.isSome_written, or_assoc]
      refine or_congr_right ?_
      simp [insertedIds, List.mem_filterMap]
  rw [lastWritten, run none]
  simp

end History

/-! Tables. -/

namespace Table
variable {α : Type}

def update (t : Table α) : TableUpdate α → Table α
  | .insert id value => (t.exchange id value).2
  | .modify id f => t.modify id f

def replay (history : List (TableUpdate α)) : Table α := history.foldl update ∅

def view (t : Table α) : StoreView α where
  get := t.get?
  contains := t.contains
  displaced id value := (t.exchange id value).1
  size := t.size
  isEmpty := t.isEmpty
  entries := t.toList

theorem get?_update (t : Table α) (u : TableUpdate α) (id : ResultId) :
    (t.update u).get? id = u.written id (t.get? id) := by
  cases u with
  | insert other value =>
    rw [update, exchange, get?_insert]
    simp only [TableUpdate.written, eq_comm]
  | modify other f =>
    rw [update, get?_modify]
    simp only [TableUpdate.written, eq_comm]

theorem get?_replay (history : List (TableUpdate α)) (id : ResultId) :
    (replay history).get? id = lastWritten history id := by
  have run : ∀ t : Table α, (history.foldl update t).get? id =
      history.foldl (TableUpdate.written id) (t.get? id) := by
    induction history with
    | nil => exact fun t => rfl
    | cons u history ih =>
      intro t
      rw [List.foldl_cons, List.foldl_cons, ih, get?_update]
  exact run ∅

theorem keys_nodup (t : Table α) : (t.toList.map Prod.fst).Nodup := by
  refine List.pairwise_map.2 (t.sorted.imp fun {a b} before same => ?_)
  rw [ResultId.lt_iff, same] at before
  exact Nat.lt_irrefl _ before

theorem mem_toList_iff {t : Table α} {id : ResultId} {value : α} :
    (id, value) ∈ t.toList ↔ t.get? id = some value :=
  (assoc?_eq_some_iff_mem t.keys_nodup).symm

theorem mem_keys_iff {t : Table α} {id : ResultId} :
    id ∈ t.toList.map Prod.fst ↔ (t.get? id).isSome := by
  simp only [List.mem_map, Prod.exists, exists_and_right, exists_eq_right, mem_toList_iff,
    Option.isSome_iff_exists]

theorem size_eq_card (t : Table α) : t.size = (t.toList.map Prod.fst).toFinset.card := by
  rw [List.toFinset_card_of_nodup t.keys_nodup, List.length_map]
  rfl

theorem size_insert (t : Table α) (id : ResultId) (value : α) :
    (t.insert id value).size = if (t.get? id).isSome then t.size else t.size + 1 := by
  have keys : ((t.insert id value).toList.map Prod.fst).toFinset =
      Insert.insert id (t.toList.map Prod.fst).toFinset := by
    ext other
    rw [Finset.mem_insert, List.mem_toFinset, List.mem_toFinset, mem_keys_iff, mem_keys_iff,
      get?_insert]
    split <;> simp [*]
  rw [size_eq_card, keys, Finset.card_insert_eq_ite, ← size_eq_card]
  simp only [List.mem_toFinset, mem_keys_iff]

theorem isEmpty_iff {t : Table α} : t.isEmpty = true ↔ t.size = 0 :=
  List.isEmpty_iff.trans List.length_eq_zero_iff.symm

theorem size_modify (t : Table α) (id : ResultId) (f : α → α) : (t.modify id f).size = t.size :=
  List.length_map _

theorem size_replay (history : List (TableUpdate α)) :
    (replay history).size = (insertedIds history).toFinset.card := by
  have keys : ((replay history).toList.map Prod.fst).toFinset = (insertedIds history).toFinset := by
    ext id
    rw [List.mem_toFinset, List.mem_toFinset, mem_keys_iff, get?_replay, isSome_lastWritten]
  rw [size_eq_card, keys]

theorem view_tells (history : List (TableUpdate α)) : (replay history).view.Tells history where
  get := get?_replay history
  absent id := by
    rw [← isSome_lastWritten, ← get?_replay, Bool.not_eq_true, Option.isSome_eq_false_iff,
      Option.isNone_iff_eq_none]
    rfl
  contains id := Iff.rfl
  displaced id _ := get?_replay history id
  size := size_replay history
  isEmpty := by
    rw [← size_replay]
    exact isEmpty_iff
  increasing := (replay history).sorted
  entries id value := by
    rw [← get?_replay]
    exact mem_toList_iff

/-- Histories that leave the same values leave the same table. -/
theorem replay_eq_iff (history other : List (TableUpdate α)) :
    replay other = replay history ↔ ∀ id, lastWritten other id = lastWritten history id := by
  constructor
  · intro same id
    rw [← get?_replay, ← get?_replay, same]
  · intro same
    refine ext_get? fun id => ?_
    rw [get?_replay, get?_replay, same]

end Table

/-! Slots. -/

/-- A vector of slots by index, and a count of those in use. -/
structure Slots (α : Type) where
  slots : List (Option α) := []
  count : UInt64 := 0

namespace Slots
variable {α : Type}

def at? (slots : List (Option α)) (index : Nat) : Option α := slots[index]?.join

def get? (s : Slots α) (id : ResultId) : Option α := at? s.slots id.index

def room (id : ResultId) : Nat := (id.word.toUInt64 + 1).toNat

def grow (slots : List (Option α)) (size : Nat) : List (Option α) :=
  slots ++ List.replicate (size - slots.length) none

/-- Stores a value, and gives back what was in its slot. A slot that was not in use is counted. -/
def insert (s : Slots α) (id : ResultId) (value : α) : Option α × Slots α :=
  let slots := grow s.slots (room id)
  let old := at? slots id.index
  (old, ⟨slots.set id.index (some value), if old.isNone then s.count + 1 else s.count⟩)

def modify (s : Slots α) (id : ResultId) (f : α → α) : Slots α :=
  { s with slots := s.slots.modify id.index (Option.map f) }

def update (s : Slots α) : TableUpdate α → Slots α
  | .insert id value => (s.insert id value).2
  | .modify id f => s.modify id f

def replay (history : List (TableUpdate α)) : Slots α := history.foldl update {}

def entriesFrom (index : Nat) (slots : List (Option α)) : List (ResultId × α) :=
  (slots.zipIdx index).filterMap fun slot =>
    slot.1.map fun value => (ResultId.ofIndex slot.2, value)

def toList (s : Slots α) : List (ResultId × α) := entriesFrom 0 s.slots

def view (s : Slots α) : StoreView α where
  get := s.get?
  contains id := (s.get? id).isSome
  displaced id value := (s.insert id value).1
  size := s.count.toNat
  isEmpty := s.count == 0
  entries := s.toList

theorem room_eq (id : ResultId) : room id = id.index + 1 := by
  have small : id.word.toNat < 4294967296 := id.word.toNat_lt
  rw [room, UInt64.toNat_add, UInt32.toNat_toUInt64, UInt64.toNat_one, ResultId.index]
  omega

theorem at?_grow (slots : List (Option α)) (size index : Nat) :
    at? (grow slots size) index = at? slots index := by
  unfold at? grow
  by_cases inside : index < slots.length
  · rw [List.getElem?_append_left inside]
  · rw [List.getElem?_append_right (by omega), List.getElem?_replicate,
      List.getElem?_eq_none (by omega)]
    split <;> rfl

theorem length_grow (slots : List (Option α)) (size : Nat) :
    (grow slots size).length = max slots.length size := by
  rw [grow, List.length_append, List.length_replicate]
  omega

theorem at?_set {slots : List (Option α)} {index : Nat} (inside : index < slots.length) (value : α)
    (other : Nat) :
    at? (slots.set index (some value)) other =
      if index = other then some value else at? slots other := by
  unfold at?
  rw [List.getElem?_set]
  by_cases same : index = other
  · rw [if_pos same, if_pos inside, if_pos same]
    rfl
  · rw [if_neg same, if_neg same]

theorem insert_fst (s : Slots α) (id : ResultId) (value : α) : (s.insert id value).1 = s.get? id :=
  at?_grow s.slots (room id) id.index

theorem at?_modify (slots : List (Option α)) (index : Nat) (f : α → α) (other : Nat) :
    at? (slots.modify index (Option.map f)) other =
      if index = other then (at? slots other).map f else at? slots other := by
  unfold at?
  rw [List.getElem?_modify]
  cases slots[other]? with
  | none => simp
  | some slot => by_cases same : index = other <;> simp [same]

theorem get?_update (s : Slots α) (u : TableUpdate α) (id : ResultId) :
    (s.update u).get? id = u.written id (s.get? id) := by
  have same : ∀ other : ResultId, other.index = id.index ↔ other = id :=
    fun other => ⟨ResultId.ext_index, fun h => h ▸ rfl⟩
  cases u with
  | insert other value =>
    have inside : other.index < (grow s.slots (room other)).length := by
      rw [length_grow, room_eq]
      omega
    change at? ((grow s.slots (room other)).set other.index (some value)) id.index = _
    rw [at?_set inside, at?_grow]
    simp only [TableUpdate.written, same]
    rfl
  | modify other f =>
    change at? (s.slots.modify other.index (Option.map f)) id.index = _
    rw [at?_modify]
    simp only [TableUpdate.written, same]
    rfl

theorem length_update (s : Slots α) (u : TableUpdate α) (fits : s.slots.length ≤ UInt32.size) :
    (s.update u).slots.length ≤ UInt32.size := by
  cases u with
  | insert id value =>
    have small : id.index < UInt32.size := id.word.toNat_lt
    change ((grow s.slots (room id)).set id.index (some value)).length ≤ UInt32.size
    rw [List.length_set, length_grow, room_eq]
    omega
  | modify id f =>
    change (s.slots.modify id.index (Option.map f)).length ≤ UInt32.size
    rw [List.length_modify]
    exact fits

/-! Entries in the order of the slots. -/

theorem entriesFrom_cons_some (index : Nat) (value : α) (slots : List (Option α)) :
    entriesFrom index (some value :: slots) =
      (ResultId.ofIndex index, value) :: entriesFrom (index + 1) slots := rfl

theorem length_entriesFrom (index : Nat) (slots : List (Option α)) :
    (entriesFrom index slots).length ≤ slots.length := by
  have all := List.length_filterMap_le (fun slot : Option α × Nat =>
    slot.1.map fun value => (ResultId.ofIndex slot.2, value)) (slots.zipIdx index)
  rwa [List.length_zipIdx] at all

theorem le_of_mem_entriesFrom {index : Nat} {slots : List (Option α)} {e : ResultId × α}
    (fits : index + slots.length ≤ UInt32.size) (member : e ∈ entriesFrom index slots) :
    index ≤ e.1.index := by
  induction slots generalizing index with
  | nil => cases member
  | cons slot slots ih =>
    rw [List.length_cons] at fits
    cases slot with
    | none =>
      have later := ih (by omega) member
      omega
    | some value =>
      rw [entriesFrom_cons_some] at member
      rcases List.mem_cons.1 member with rfl | inside
      · exact (ResultId.index_ofIndex (by omega)).ge
      · have later := ih (by omega) inside
        omega

theorem entriesFrom_increasing {index : Nat} {slots : List (Option α)}
    (fits : index + slots.length ≤ UInt32.size) :
    (entriesFrom index slots).Pairwise fun a b => a.1 < b.1 := by
  induction slots generalizing index with
  | nil => exact .nil
  | cons slot slots ih =>
    rw [List.length_cons] at fits
    cases slot with
    | none => exact ih (by omega)
    | some value =>
      rw [entriesFrom_cons_some]
      refine List.pairwise_cons.2 ⟨fun e member => ?_, ih (by omega)⟩
      have later := le_of_mem_entriesFrom (by omega) member
      rw [ResultId.lt_iff, ResultId.index_ofIndex (by omega)]
      omega

theorem assoc?_entriesFrom {index : Nat} {slots : List (Option α)}
    (fits : index + slots.length ≤ UInt32.size) {id : ResultId} (behind : index ≤ id.index) :
    assoc? id (entriesFrom index slots) = at? slots (id.index - index) := by
  induction slots generalizing index with
  | nil => rfl
  | cons slot slots ih =>
    rw [List.length_cons] at fits
    have position : (ResultId.ofIndex index).index = index := ResultId.index_ofIndex (by omega)
    have here : id = ResultId.ofIndex index ↔ id.index = index :=
      ⟨fun same => same ▸ position, fun same => ResultId.ext_index (same.trans position.symm)⟩
    by_cases first : id.index = index
    · have missing : assoc? id (entriesFrom (index + 1) slots) = none := by
        refine assoc?_eq_none_of_lt fun e member => ?_
        have later := le_of_mem_entriesFrom (by omega) member
        rw [ResultId.lt_iff]
        omega
      have head : at? (slot :: slots) (id.index - index) = slot := by
        simp [at?, first]
      rw [head]
      cases slot with
      | none => exact missing
      | some value => rw [entriesFrom_cons_some, assoc?, if_pos (here.2 first)]
    · have tail : at? (slot :: slots) (id.index - index) = at? slots (id.index - (index + 1)) := by
        have step : id.index - index = id.index - (index + 1) + 1 := by omega
        rw [step]
        rfl
      rw [tail, ← ih (by omega) (by omega)]
      cases slot with
      | none => rfl
      | some value => rw [entriesFrom_cons_some, assoc?, if_neg (mt here.1 first)]

/-! Slots stand for tables. -/

/-- The slots hold the entries of the table, and as many are counted. -/
structure Represents (s : Slots α) (t : Table α) : Prop where
  get : ∀ id, s.get? id = t.get? id
  count : s.count.toNat = t.size
  fits : s.slots.length ≤ UInt32.size

section Represents
variable {s : Slots α} {t : Table α} (represents : s.Represents t)
include represents

theorem Represents.toList_eq : s.toList = t.toList := by
  have fits : 0 + s.slots.length ≤ UInt32.size := by
    rw [Nat.zero_add]
    exact represents.fits
  refine entries_eq_of_assoc? (entriesFrom_increasing fits) t.sorted fun id => ?_
  rw [toList, assoc?_entriesFrom fits (Nat.zero_le _)]
  exact represents.get id

theorem Represents.size_le : t.size ≤ UInt32.size := by
  have entries : t.size = s.toList.length := (congrArg List.length represents.toList_eq).symm
  rw [entries]
  exact (length_entriesFrom 0 s.slots).trans represents.fits

theorem Represents.update (u : TableUpdate α) : (s.update u).Represents (t.update u) where
  get id := by rw [get?_update, Table.get?_update, represents.get]
  fits := length_update s u represents.fits
  count := by
    cases u with
    | modify id f => exact represents.count.trans (Table.size_modify t id f).symm
    | insert id value =>
      have bound : t.size ≤ 4294967296 := represents.size_le
      have count := represents.count
      change (if (s.insert id value).1.isNone then s.count + 1 else s.count).toNat =
        (t.insert id value).size
      rw [Table.size_insert, insert_fst, represents.get]
      cases t.get? id with
      | some old => exact count
      | none =>
        change (s.count + 1).toNat = t.size + 1
        rw [UInt64.toNat_add, UInt64.toNat_one]
        omega

theorem Represents.view_eq : s.view = t.view := by
  have isEmpty : (s.count == 0) = t.isEmpty := by
    rw [Bool.eq_iff_iff, beq_iff_eq, Table.isEmpty_iff, ← represents.count, ← UInt64.toNat_inj]
    rfl
  have contains : (fun id => (s.get? id).isSome) = t.contains :=
    funext fun id => congrArg Option.isSome (represents.get id)
  have displaced : (fun id value => (s.insert id value).1) = fun id value => (t.exchange id value).1 :=
    funext fun id => funext fun value => (s.insert_fst id value).trans (represents.get id)
  exact StoreView.ext (funext represents.get) contains displaced represents.count isEmpty
    represents.toList_eq

end Represents

theorem replay_represents (history : List (TableUpdate α)) :
    (replay history).Represents (Table.replay history) := by
  have run : ∀ (s : Slots α) (t : Table α), s.Represents t →
      (history.foldl update s).Represents (history.foldl Table.update t) := by
    induction history with
    | nil => exact fun s t represents => represents
    | cons u history ih => exact fun s t represents => ih _ _ (represents.update u)
  exact run {} ∅ ⟨fun id => rfl, rfl, Nat.zero_le _⟩

end Slots

/-- After any updates a table holds the value last written under each id, under the ids at which
something was inserted and no others; insertions give back what was there before; the size is the
number of those ids; and the entries are listed once each by increasing id. Updates that leave the same
values leave the same table, in whatever order they came. Slots that grow with the ids and a count kept
beside them give the same answers. -/
theorem storage_refines_map {α : Type} (history : List (TableUpdate α)) :
    (Table.replay history).view.Tells history ∧
    (Slots.replay history).view = (Table.replay history).view ∧
    ∀ other, Table.replay other = Table.replay history ↔
      ∀ id, lastWritten other id = lastWritten history id :=
  ⟨Table.view_tells history, (Slots.replay_represents history).view_eq, Table.replay_eq_iff history⟩

end Shader
