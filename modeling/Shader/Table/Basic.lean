import Shader.ResultId

/-!
Tables keyed by result ids. A table lists its entries by increasing id, whatever the order in which
they came.
-/

namespace Shader

def assoc? {κ α : Type} [DecidableEq κ] (key : κ) : List (κ × α) → Option α
  | [] => none
  | e :: es => if key = e.1 then some e.2 else assoc? key es

structure Table (α : Type) where
  entries : List (ResultId × α)
  sorted : entries.Pairwise fun a b => a.1 < b.1
deriving DecidableEq

namespace Table
variable {α : Type}

def empty : Table α := ⟨[], .nil⟩

instance : EmptyCollection (Table α) := ⟨empty⟩

def get? (t : Table α) (id : ResultId) : Option α := assoc? id t.entries

def contains (t : Table α) (id : ResultId) : Bool := (t.get? id).isSome

def size (t : Table α) : Nat := t.entries.length

def isEmpty (t : Table α) : Bool := t.entries.isEmpty

def toList (t : Table α) : List (ResultId × α) := t.entries

def insertEntry (id : ResultId) (value : α) : List (ResultId × α) → List (ResultId × α)
  | [] => [(id, value)]
  | e :: es =>
    if id = e.1 then (id, value) :: es
    else if id < e.1 then (id, value) :: e :: es
    else e :: insertEntry id value es

theorem mem_insertEntry {id : ResultId} {value : α} {es : List (ResultId × α)} {e : ResultId × α}
    (member : e ∈ insertEntry id value es) : e = (id, value) ∨ e ∈ es := by
  induction es with
  | nil => simpa [insertEntry] using member
  | cons d ds ih =>
    simp only [insertEntry] at member
    split at member
    · rcases List.mem_cons.1 member with h | h
      · exact .inl h
      · exact .inr (List.mem_cons_of_mem _ h)
    · split at member
      · rcases List.mem_cons.1 member with h | h
        · exact .inl h
        · exact .inr h
      · rcases List.mem_cons.1 member with h | h
        · exact .inr (h ▸ List.mem_cons_self)
        · exact (ih h).imp_right (List.mem_cons_of_mem _)

theorem sorted_insertEntry (id : ResultId) (value : α) {es : List (ResultId × α)}
    (sorted : es.Pairwise fun a b => a.1 < b.1) :
    (insertEntry id value es).Pairwise fun a b => a.1 < b.1 := by
  induction es with
  | nil => simp [insertEntry]
  | cons e es ih =>
    obtain ⟨first, rest⟩ := List.pairwise_cons.1 sorted
    simp only [insertEntry]
    split
    · rename_i same
      exact List.pairwise_cons.2 ⟨fun b hb => same ▸ first b hb, rest⟩
    · rename_i differ
      split
      · rename_i before
        refine List.pairwise_cons.2 ⟨fun b hb => ?_, sorted⟩
        rcases List.mem_cons.1 hb with h | h
        · exact h ▸ before
        · exact ResultId.lt_iff.2
            (Nat.lt_trans (ResultId.lt_iff.1 before) (ResultId.lt_iff.1 (first b h)))
      · rename_i after
        refine List.pairwise_cons.2 ⟨fun b hb => ?_, ih rest⟩
        rcases mem_insertEntry hb with h | h
        · subst h
          rw [ResultId.lt_iff] at after ⊢
          have : id.index ≠ e.1.index := fun h => differ (ResultId.ext_index h)
          show e.1.index < id.index
          omega
        · exact first b h

def insert (t : Table α) (id : ResultId) (value : α) : Table α :=
  ⟨insertEntry id value t.entries, sorted_insertEntry id value t.sorted⟩

/-- What was stored under the id before, beside the table after the insertion. -/
def exchange (t : Table α) (id : ResultId) (value : α) : Option α × Table α :=
  (t.get? id, t.insert id value)

def modify (t : Table α) (id : ResultId) (f : α → α) : Table α where
  entries := t.entries.map fun e => if e.1 = id then (e.1, f e.2) else e
  sorted := by
    refine List.pairwise_map.2 (t.sorted.imp fun {a b} h => ?_)
    split <;> split <;> exact h

end Table
end Shader
