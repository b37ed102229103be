/-!
Result ids: the 32-bit words by which the parts of a module refer to each other.
-/

namespace Shader

structure ResultId where
  word : UInt32
deriving DecidableEq, Repr

namespace ResultId

instance : LT ResultId := ⟨fun a b => a.word < b.word⟩

instance : LE ResultId := ⟨fun a b => a.word ≤ b.word⟩

instance (a b : ResultId) : Decidable (a < b) := inferInstanceAs (Decidable (a.word < b.word))

instance (a b : ResultId) : Decidable (a ≤ b) := inferInstanceAs (Decidable (a.word ≤ b.word))

def text (id : ResultId) : String := "%" ++ id.word.toNat.repr

def index (id : ResultId) : Nat := id.word.toNat

/-- Indices are counted modulo 2^32. -/
def ofIndex (index : Nat) : ResultId := ⟨UInt32.ofNat index⟩

/-- The id after the last one is zero. -/
def next (id : ResultId) : ResultId := ⟨id.word + 1⟩

def sort (ids : List ResultId) : List ResultId := ids.mergeSort fun a b => decide (a ≤ b)

theorem ofIndex_index (id : ResultId) : ofIndex id.index = id := by
  simp [ofIndex, index]

theorem next_eq_ofIndex (id : ResultId) : id.next = ofIndex (id.index + 1) := by
  simp [next, ofIndex, index, UInt32.ofNat_add]

theorem lt_iff {a b : ResultId} : a < b ↔ a.index < b.index := UInt32.lt_iff_toNat_lt

theorem ext_index {a b : ResultId} (same : a.index = b.index) : a = b := by
  rw [← ofIndex_index a, ← ofIndex_index b, same]

end ResultId
end Shader
