import Shader.Table.Basic

/-!
What a look-up finds after each operation on a table, where an entry goes, and that look-ups
determine the table (`Table.ext_get?`).
-/

namespace Shader

theorem mem_of_assoc? {κ α : Type} [DecidableEq κ] {es : List (κ × α)} {key : κ} {value : α}
    (found : assoc? key es = some value) : (key, value) ∈ es := by
  induction es with
  | nil => cases found
  | cons e es ih =>
    by_cases here : key = e.1
    · simp only [assoc?, here, if_true, Option.some.injEq] at found
      simp [here, ← found]
    · simp only [assoc?, here, if_false] at found
      exact List.mem_cons_of_mem _ (ih found)

theorem assoc?_eq_some_iff_mem {κ α : Type} [DecidableEq κ] {es : List (κ × α)}
    (once : (es.map Prod.fst).Nodup) {key : κ} {value : α} :
    assoc? key es = some value ↔ (key, value) ∈ es := by
  induction es with
  | nil => simp [assoc?]
  | cons e es ih =>
    simp only [List.map_cons, List.nodup_cons] at once
    simp only [assoc?, List.mem_cons]
    by_cases here : key = e.1
    · have absent : (key, value) ∉ es := by
        intro later
        exact once.1 (here ▸ List.mem_map_of_mem later)
      simp only [here, if_true, Option.some.injEq]
      rw [here] at absent
      simp [absent, Prod.ext_iff, eq_comm]
    · simp [here, ih once.2, Prod.ext_iff]

theorem not_mem_keys_of_assoc?_eq_none {κ α : Type} [DecidableEq κ] {es : List (κ × α)} {key : κ}
    (missing : assoc? key es = none) : key ∉ es.map Prod.fst := by
  induction es with
  | nil => simp
  | cons e es ih =>
    by_cases here : key = e.1
    · simp [assoc?, here] at missing
    · simp only [assoc?, here, if_false] at missing
      simp only [List.map_cons, List.mem_cons, here, false_or]
      exact ih missing

theorem assoc?_map_key {κ κ' α : Type} [DecidableEq κ] [DecidableEq κ'] {f : κ → κ'} {key : κ}
    {es : List (κ × α)} (apart : ∀ e ∈ es, f e.1 = f key → e.1 = key) :
    assoc? (f key) (es.map fun e => (f e.1, e.2)) = assoc? key es := by
  induction es with
  | nil => rfl
  | cons e es ih =>
    rw [List.forall_mem_cons] at apart
    have first : f key = f e.1 ↔ key = e.1 := ⟨fun same => (apart.1 same.symm).symm, congrArg f⟩
    simp only [List.map_cons, assoc?, first, ih apart.2]

theorem nodup_keys_concat {κ α : Type} [DecidableEq κ] {es : List (κ × α)}
    (once : (es.map Prod.fst).Nodup) {key : κ} (new : assoc? key es = none) (value : α) :
    ((es ++ [(key, value)]).map Prod.fst).Nodup := by
  simp only [List.map_append, List.map_cons, List.map_nil]
  exact List.nodup_append.2 ⟨once, by simp, by
    intro a member b last
    obtain rfl := List.mem_singleton.1 last
    intro same
    exact not_mem_keys_of_assoc?_eq_none new (same ▸ member)⟩

theorem assoc?_eq_none_of_lt {α : Type} {id : ResultId} {es : List (ResultId × α)}
    (below : ∀ e ∈ es, id < e.1) : assoc? id es = none := by
  induction es with
  | nil => rfl
  | cons e es ih =>
    have differ : id ≠ e.1 := fun same => by
      have h := ResultId.lt_iff.1 (below e List.mem_cons_self)
      exact absurd h (same ▸ Nat.lt_irrefl _)
    simp [assoc?, differ, ih fun e h => below e (List.mem_cons_of_mem _ h)]

theorem assoc?_eq_none_of_head {α : Type} {id : ResultId} {d : ResultId × α}
    {ds : List (ResultId × α)} (sorted : (d :: ds).Pairwise fun a b => a.1 < b.1) (below : id < d.1) :
    assoc? id (d :: ds) = none := by
  refine assoc?_eq_none_of_lt fun b member => ?_
  rcases List.mem_cons.1 member with rfl | member
  · exact below
  · have later := List.rel_of_pairwise_cons sorted member
    exact ResultId.lt_iff.2 (Nat.lt_trans (ResultId.lt_iff.1 below) (ResultId.lt_iff.1 later))

theorem entries_eq_of_assoc? {α : Type} {es ds : List (ResultId × α)}
    (se : es.Pairwise fun a b => a.1 < b.1) (sd : ds.Pairwise fun a b => a.1 < b.1)
    (same : ∀ id, assoc? id es = assoc? id ds) : es = ds := by
  induction es generalizing ds with
  | nil =>
    cases ds with
    | nil => rfl
    | cons d ds => simpa [assoc?] using same d.1
  | cons e es ih =>
    cases ds with
    | nil => simpa [assoc?] using same e.1
    | cons d ds =>
      obtain ⟨fe, re⟩ := List.pairwise_cons.1 se
      obtain ⟨fd, rd⟩ := List.pairwise_cons.1 sd
      have notBelow : ¬e.1 < d.1 := fun h => by
        have absent := assoc?_eq_none_of_head sd h
        rw [← same] at absent
        simp [assoc?] at absent
      have notAbove : ¬d.1 < e.1 := fun h => by
        have absent := assoc?_eq_none_of_head se h
        rw [same] at absent
        simp [assoc?] at absent
      have key : e.1 = d.1 := by
        rw [ResultId.lt_iff] at notBelow notAbove
        exact ResultId.ext_index (by omega)
      have value : e.2 = d.2 := by simpa [assoc?, key] using same e.1
      have rest : es = ds := ih re rd fun id => by
        by_cases h : id = e.1
        · subst h
          rw [assoc?_eq_none_of_lt fe, assoc?_eq_none_of_lt (key ▸ fd)]
        · simpa [assoc?, h, key ▸ h] using same id
      rw [rest, Prod.ext key value]

namespace Table
variable {α : Type}

@[simp] theorem get?_empty (id : ResultId) : (empty : Table α).get? id = none := rfl

theorem assoc?_insertEntry (id other : ResultId) (value : α)
    (es : List (ResultId × α)) :
    assoc? other (insertEntry id value es) = if other = id then some value else assoc? other es := by
  induction es with
  | nil => simp [insertEntry, assoc?]
  | cons e es ih =>
    simp only [insertEntry]
    split
    · rename_i same
      by_cases h : other = id <;> simp [assoc?, h, ← same]
    · rename_i differ
      split
      · simp [assoc?]
      · by_cases h : other = e.1
        · subst h; simp [assoc?, Ne.symm differ]
        · simp [assoc?, h, ih]

theorem get?_insert (t : Table α) (id other : ResultId) (value : α) :
    (t.insert id value).get? other = if other = id then some value else t.get? other :=
  assoc?_insertEntry id other value t.entries

@[simp] theorem get?_insert_self (t : Table α) (id : ResultId) (value : α) :
    (t.insert id value).get? id = some value := by simp [get?_insert]

theorem get?_insert_of_ne (t : Table α) {id other : ResultId} (value : α) (differ : other ≠ id) :
    (t.insert id value).get? other = t.get? other := by simp [get?_insert, differ]

theorem get?_insert_eq_some {t : Table α} {id other : ResultId} {value found : α} :
    (t.insert id value).get? other = some found ↔
      other = id ∧ value = found ∨ other ≠ id ∧ t.get? other = some found := by
  rw [get?_insert]
  split <;> simp_all

theorem get?_modify (t : Table α) (id other : ResultId) (f : α → α) :
    (t.modify id f).get? other = if other = id then (t.get? other).map f else t.get? other := by
  obtain ⟨entries, sorted⟩ := t
  simp only [get?, modify]
  clear sorted
  induction entries with
  | nil => simp [assoc?]
  | cons e es ih =>
    by_cases here : other = e.1
    · subst here
      by_cases h : e.1 = id <;> simp [assoc?, h]
    · by_cases h : e.1 = id
      · have differ : other ≠ id := h ▸ here
        simp [assoc?, h, differ, ih]
      · simp [assoc?, h, here, ih]

/-- An id larger than all others goes to the end. -/
theorem toList_insert_of_above {t : Table α} {id : ResultId} (above : ∀ e ∈ t.toList, e.1 < id)
    (value : α) : (t.insert id value).toList = t.toList ++ [(id, value)] := by
  obtain ⟨entries, sorted⟩ := t
  simp only [toList, insert] at above ⊢
  clear sorted
  induction entries with
  | nil => rfl
  | cons e es ih =>
    have below := ResultId.lt_iff.1 (above e List.mem_cons_self)
    have differ : id ≠ e.1 := fun same => absurd below (same ▸ Nat.lt_irrefl _)
    have notBefore : ¬id < e.1 := fun before =>
      Nat.lt_asymm below (ResultId.lt_iff.1 before)
    simp only [insertEntry, differ, notBefore, if_false, List.cons_append]
    rw [ih fun d member => above d (List.mem_cons_of_mem _ member)]

theorem ext_get? {s t : Table α} (same : ∀ id, s.get? id = t.get? id) : s = t := by
  obtain ⟨es, se⟩ := s
  obtain ⟨ds, sd⟩ := t
  obtain rfl : es = ds := entries_eq_of_assoc? se sd same
  rfl

end Table
end Shader
