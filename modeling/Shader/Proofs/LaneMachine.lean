import Shader.Proofs.Selection
import Shader.Proofs.Session

/-!
What programs mean, without ids, types or instructions: registers and the position hold four lanes
each, a value is a list of lanes, and a masked write moves lanes one by one.
-/

namespace Shader

namespace LaneMask

/-- The lane of a source that goes to a lane of a destination, by the numbers of lanes that they
have. A single lane goes to the lowest selected lane only. A narrow source is packed: its lanes go
to the selected lanes in turn. Otherwise lanes stay where they are. -/
def sourceLane (mask : LaneMask) (dst src lane : Nat) : Option Nat :=
  if mask.test lane then
    if src = 1 then
      if mask.first? = some lane then some 0 else none
    else if src < dst then some ((List.range lane).countP mask.test)
    else some lane
  else none

def mergeLanes {α : Type} (mask : LaneMask) (dst src : List α) : List α :=
  dst.mapIdx fun lane x =>
    ((mask.sourceLane dst.length src.length lane).bind fun k => src[k]?).getD x

/-- Masked writes that make sense: a scalar takes a scalar, a scalar goes to a lane that is there,
and a narrow source has a lane for each selected one. -/
def Admits (mask : LaneMask) (dst src : Nat) : Prop :=
  (dst = 1 → src = 1) ∧
  (dst ≠ 1 → src = 1 → ∀ lane ∈ mask.first?, lane < dst) ∧
  (src ≠ 1 → src < dst → (List.range dst).countP mask.test ≤ src)

instance (mask : LaneMask) (dst src : Nat) : Decidable (mask.Admits dst src) :=
  inferInstanceAs (Decidable (_ ∧ _ ∧ _))

/-- Masked writes that can be carried out: admissible ones, and those of a vector to a scalar that
is not selected. -/
def Accepts (mask : LaneMask) (dst src : Nat) : Prop :=
  (dst = 1 → src = 1 ∨ mask.test 0 = false) ∧
  (dst ≠ 1 → src = 1 → ∀ lane ∈ mask.first?, lane < dst) ∧
  (src ≠ 1 → src < dst → (List.range dst).countP mask.test ≤ src)

instance (mask : LaneMask) (dst src : Nat) : Decidable (mask.Accepts dst src) :=
  inferInstanceAs (Decidable (_ ∧ _ ∧ _))

theorem Admits.accepts {mask : LaneMask} {dst src : Nat} (admits : mask.Admits dst src) :
    mask.Accepts dst src := ⟨fun one => .inl (admits.1 one), admits.2⟩

end LaneMask

inductive Target where
  | temp (index : Nat)
  | position
deriving DecidableEq, Repr

def zeroLanes : List Binary32 := List.replicate 4 ⟨0⟩

structure LaneMachine where
  temps : List (List Binary32) := []
  position : List Binary32 := zeroLanes
  values : List (List Binary32) := []
  places : List Target := []
deriving DecidableEq, Repr

namespace LaneMachine

def read (a : LaneMachine) : Target → List Binary32
  | .temp index => a.temps.getD index zeroLanes
  | .position => a.position

def write (a : LaneMachine) (lanes : List Binary32) : Target → LaneMachine
  | .temp index => { a with temps := a.temps.set index lanes }
  | .position => { a with position := lanes }

def answer (a : LaneMachine) (lanes : List Binary32) : LaneMachine :=
  { a with values := a.values ++ [lanes] }

/-- Carries out a command. New registers are zero, and a register must be there to be used. -/
def perform (a : LaneMachine) : Command → Except Refusal LaneMachine
  | .float x => .ok (a.answer [x])
  | .floats xs => .ok (a.answer xs)
  | .reserve count =>
    .ok { a with temps := a.temps ++ List.replicate (count - a.temps.length) zeroLanes }
  | .register index =>
    if index < a.temps.length then .ok { a with places := a.places ++ [.temp index] }
    else .error (.misuse (.undeclaredRegister index a.temps.length))
  | .merge dst src mask =>
    match a.values[dst]?, a.values[src]? with
    | some dst, some src => .ok (a.answer (mask.mergeLanes dst src))
    | _, _ => .error .dangling
  | .load place =>
    match a.places[place]? with
    | some target => .ok (a.answer (a.read target))
    | none => .error .dangling
  | .store place value mask =>
    match a.places[place]?, a.values[value]? with
    | some target, some src => .ok (a.write (mask.mergeLanes (a.read target) src) target)
    | _, _ => .error .dangling
  | .position => .ok { a with places := a.places ++ [.position] }
  | _ => .ok a

def Allows (a : LaneMachine) : Command → Prop
  | .floats xs => 1 ≤ xs.length ∧ xs.length ≤ 4
  | .merge dst src mask =>
    ∃ d ∈ a.values[dst]?, ∃ s ∈ a.values[src]?, mask.Admits d.length s.length
  | .load place => place < a.places.length
  | .store place value mask =>
    place < a.places.length ∧ ∃ s ∈ a.values[value]?, mask.Admits 4 s.length
  | _ => True

instance (a : LaneMachine) : ∀ c, Decidable (a.Allows c)
  | .floats xs => inferInstanceAs (Decidable (1 ≤ xs.length ∧ xs.length ≤ 4))
  | .merge dst src mask => inferInstanceAs (Decidable
    (∃ d ∈ a.values[dst]?, ∃ s ∈ a.values[src]?, mask.Admits d.length s.length))
  | .load place => inferInstanceAs (Decidable (place < a.places.length))
  | .store place value mask => inferInstanceAs (Decidable
    (place < a.places.length ∧ ∃ s ∈ a.values[value]?, mask.Admits 4 s.length))
  | .scalarType _ | .valueType _ | .placeType _ | .float _ | .reserve _ | .register _
  | .vertexBlock | .position => inferInstanceAs (Decidable True)

def performAll : LaneMachine → List Command → Except Refusal LaneMachine
  | a, [] => .ok a
  | a, c :: cs => do (← a.perform c).performAll cs

def AllowsAll : LaneMachine → List Command → Prop
  | _, [] => True
  | a, c :: cs => a.Allows c ∧ ∀ a', a.perform c = .ok a' → a'.AllowsAll cs

instance decidableAllowsAll : ∀ (a : LaneMachine) (cs : List Command), Decidable (a.AllowsAll cs)
  | _, [] => isTrue trivial
  | a, c :: cs =>
    match found : a.perform c with
    | .ok a' =>
      have := decidableAllowsAll a' cs
      decidable_of_iff (a.Allows c ∧ a'.AllowsAll cs) (by simp [AllowsAll, found])
    | .error _ => decidable_of_iff (a.Allows c) (by simp [AllowsAll, found])

end LaneMachine

/-! How merges are planned, against what they are to do to lanes. -/

namespace Width

theorem count_le_four (w : Width) : w.count ≤ 4 := by
  cases w <;> simp [count]

theorem two_le_count {w : Width} (several : w ≠ .one) : 2 ≤ w.count := by
  cases w with
  | one => exact absurd rfl several
  | _ => decide

theorem toNat_word (w : Width) : w.word.toNat = w.count := by
  cases w <;> rfl

theorem words_fit (dst src : Width) : dst.word.toNat + src.word.toNat < UInt32.size := by
  have small := dst.count_le_four
  have smaller := src.count_le_four
  simp only [toNat_word, UInt32.size]
  omega

end Width

namespace LaneMask

theorem first?_eq_none {mask : LaneMask} (empty : mask.first? = none) (lane : Nat) :
    mask.test lane = false := by
  obtain ⟨x, y, z, w⟩ := mask
  match lane with
  | 0 | 1 | 2 | 3 => revert x y z w; decide
  | _ + 4 => rfl

theorem test_of_first? {mask : LaneMask} {lane : Nat} (first : mask.first? = some lane) :
    mask.test lane = true := by
  unfold first? lanes at first
  have member : lane ∈ [0, 1, 2, 3].filter mask.test := List.mem_of_head? first
  exact (List.mem_filter.1 member).2

theorem Accepts.enough {mask : LaneMask} {dst src : Width} (several : src ≠ .one)
    (accepts : mask.Accepts dst.count src.count) : ¬mask.Exhausts dst.word src.word := by
  intro ⟨narrow, more⟩
  rw [UInt32.lt_iff_toNat_lt, Width.toNat_word, Width.toNat_word] at narrow
  rw [Width.toNat_word, Width.toNat_word] at more
  have lanes := Width.two_le_count several
  exact absurd (accepts.2.2 (by omega) narrow) (Nat.not_le.2 more)

theorem sourceLane_of_several {mask : LaneMask} {dst src lane : Nat} (several : src ≠ 1) :
    mask.sourceLane dst src lane =
      if mask.test lane then some (mask.takenLane dst src lane) else none := by
  unfold sourceLane takenLane
  rw [if_neg several]
  split
  · split <;> rfl
  · rfl

theorem sourceLane_lt (mask : LaneMask) {dst src lane k : Nat} (present : 0 < src)
    (accepts : mask.Accepts dst src) (within : lane < dst)
    (source : mask.sourceLane dst src lane = some k) : k < src := by
  unfold sourceLane at source
  split at source
  · rename_i selected
    split at source
    · split at source
      · cases source
        exact present
      · cases source
    · rename_i several
      split at source
      · rename_i narrow
        cases source
        -- The lane itself is selected, so fewer are selected below it than there are in all.
        have fewer : (List.range (lane + 1)).countP mask.test ≤ (List.range dst).countP mask.test :=
          (List.range_sublist.2 within).countP_le
        have enough := accepts.2.2 several narrow
        rw [List.range_succ, List.countP_append, List.countP_singleton, if_pos selected] at fewer
        omega
      · cases source
        omega
  · cases source

theorem length_mergeLanes {α : Type} (mask : LaneMask) (dst src : List α) :
    (mask.mergeLanes dst src).length = dst.length := by
  simp [mergeLanes]

theorem getElem?_mergeLanes {α : Type} {mask : LaneMask} {dst src : List α}
    (present : 0 < src.length) (accepts : mask.Accepts dst.length src.length) {lane : Nat}
    (within : lane < dst.length) :
    (mask.mergeLanes dst src)[lane]? =
      (mask.sourceLane dst.length src.length lane).elim dst[lane]? fun k => src[k]? := by
  simp only [mergeLanes, List.getElem?_mapIdx, List.getElem?_eq_getElem within, Option.map_some]
  cases source : mask.sourceLane dst.length src.length lane with
  | none => rfl
  | some k =>
    have inSource : k < src.length := sourceLane_lt mask present accepts within source
    simp [inSource]

theorem mergeLanes_firstLanes {α : Type} {w : Width} {dst src : List α}
    (dstLength : dst.length = w.count) (srcLength : src.length = w.count) :
    (firstLanes w.count).mergeLanes dst src = src := by
  refine List.ext_getElem (by rw [length_mergeLanes, dstLength, srcLength]) ?_
  intro lane below _
  rw [length_mergeLanes, dstLength] at below
  have same : ∀ lane < w.count,
      (firstLanes w.count).sourceLane w.count w.count lane = some lane := by
    cases w <;> decide
  simp [mergeLanes, dstLength, srcLength, same lane below, below]

theorem mergeLanes_of_empty {α : Type} {mask : LaneMask} (empty : mask.first? = none)
    (xs ys : List α) :
    mask.mergeLanes xs ys = xs := by
  unfold mergeLanes sourceLane
  refine List.ext_getElem (by simp) ?_
  intro n _ _
  simp [first?_eq_none empty]

end LaneMask

namespace Merge

def Yields {α : Type} (dst src result : List α) : Merge → Prop
  | .keep => result = dst
  | .replace => result = src
  | .insert lane => ∃ x, src = [x] ∧ 2 ≤ dst.length ∧ lane < dst.length ∧ result = dst.set lane x
  | .shuffle selectors => 2 ≤ dst.length ∧ 2 ≤ src.length ∧
    List.Forall₂ (fun k x => (dst ++ src)[k.toNat]? = some x) selectors result

variable {α : Type} {mask : LaneMask}

theorem scalar_yields (x : α) {ys : List α} (scalar : ys.length = 1 ∨ mask.test 0 = false) :
    (if mask.test 0 then replace else keep).Yields [x] ys (mask.mergeLanes [x] ys) := by
  by_cases selected : mask.test 0 = true
  · have single : ys.length = 1 := scalar.resolve_right (by simp [selected])
    obtain ⟨y, rfl⟩ := List.length_eq_one_iff.1 single
    obtain ⟨_ | _, b, c, d⟩ := mask
    · cases selected
    · rfl
  · simp [selected, Yields, LaneMask.mergeLanes, LaneMask.sourceLane]

theorem insert_yields {lane : Nat} (first : mask.first? = some lane) {xs : List α}
    (several : 2 ≤ xs.length) (within : lane < xs.length) (y : α) :
    (insert lane).Yields xs [y] (mask.mergeLanes xs [y]) := by
  refine ⟨y, rfl, several, within, ?_⟩
  unfold LaneMask.mergeLanes LaneMask.sourceLane
  refine List.ext_getElem (by simp) ?_
  intro n below _
  simp only [List.getElem_mapIdx, List.length_singleton, ↓reduceIte, first, Option.some.injEq]
  by_cases here : lane = n
  · subst here
    simp [LaneMask.test_of_first? first]
  · simp [here]

theorem shuffle_yields {dst src : Width} (more : dst ≠ .one) (several : src ≠ .one)
    {xs ys : List α} (xsLength : xs.length = dst.count) (ysLength : ys.length = src.count)
    (accepts : mask.Accepts dst.count src.count) :
    ∃ selectors, mask.selectors dst.word src.word = .ok selectors ∧
      (shuffle selectors).Yields xs ys (mask.mergeLanes xs ys) := by
  have dstLanes := Width.two_le_count more
  have srcLanes := Width.two_le_count several
  have enough := accepts.enough several
  obtain ⟨chosen, found, lanes⟩ := LaneMask.exists_shuffled (Width.words_fit dst src) enough
    (xsLength.trans dst.toNat_word.symm) (ysLength.trans src.toNat_word.symm)
  have length : chosen.length = xs.length := by
    rw [← found.length_eq, LaneMask.selectorWords, List.length_map, List.length_range,
      Width.toNat_word, xsLength]
  rw [Width.toNat_word, Width.toNat_word, ← xsLength, ← ysLength] at lanes
  rw [← xsLength, ← ysLength] at accepts
  -- Lane by lane, what is shuffled is what is merged.
  have same : chosen = mask.mergeLanes xs ys := by
    refine List.ext_getElem? fun lane => ?_
    by_cases within : lane < xs.length
    · rw [lanes lane within, LaneMask.getElem?_mergeLanes (by omega) accepts within,
        LaneMask.sourceLane_of_several (by omega)]
      split <;> rfl
    · rw [List.getElem?_eq_none (by omega),
        List.getElem?_eq_none (by rw [LaneMask.length_mergeLanes]; omega)]
  exact ⟨_, (LaneMask.selectors_eq_ok (Width.words_fit dst src)).2 ⟨enough, rfl⟩, by omega, by omega,
    same ▸ found⟩

/-- A merge that can be carried out is never refused, and its plan does to the lanes what is
asked. -/
theorem plan_yields_of_accepts {dst src : Width} {xs ys : List α} (xsLength : xs.length = dst.count)
    (ysLength : ys.length = src.count) (accepts : mask.Accepts dst.count src.count) :
    ∃ plan, Merge.plan dst src mask = .ok plan ∧ plan.Yields xs ys (mask.mergeLanes xs ys) := by
  unfold plan
  by_cases one : dst = .one
  · subst one
    obtain ⟨x, rfl⟩ := List.length_eq_one_iff.1 xsLength
    exact ⟨_, rfl, scalar_yields x (ysLength ▸ accepts.1 rfl)⟩
  · rw [if_neg one]
    have several : 2 ≤ xs.length := xsLength ▸ Width.two_le_count one
    by_cases scalar : src = .one
    · subst scalar
      obtain ⟨y, rfl⟩ := List.length_eq_one_iff.1 ysLength
      rw [if_pos rfl]
      cases first : mask.first? with
      | none => exact ⟨keep, rfl, LaneMask.mergeLanes_of_empty first _ _⟩
      | some lane =>
        have more : dst.count ≠ 1 := by omega
        have within : lane < dst.count := accepts.2.1 more rfl lane first
        exact ⟨insert lane, rfl, insert_yields first several (by omega) y⟩
    · rw [if_neg scalar]
      obtain ⟨selectors, found, yields⟩ := shuffle_yields one scalar xsLength ysLength accepts
      exact ⟨shuffle selectors, bind_eq_ok.2 ⟨selectors, found, rfl⟩, yields⟩

theorem exists_plan {dst src : Width} (accepts : mask.Accepts dst.count src.count) :
    ∃ plan, Merge.plan dst src mask = .ok plan := by
  have lanes (n : Nat) : (List.replicate n ()).length = n := List.length_replicate
  obtain ⟨plan, planned, -⟩ := plan_yields_of_accepts (lanes _) (lanes _) accepts
  exact ⟨plan, planned⟩

theorem plan_yields {dst src : Width} {xs ys : List α} (xsLength : xs.length = dst.count)
    (ysLength : ys.length = src.count) (admits : mask.Admits xs.length ys.length) :
    ∃ plan, Merge.plan dst src mask = .ok plan ∧ plan.Yields xs ys (mask.mergeLanes xs ys) := by
  rw [xsLength, ysLength] at admits
  exact plan_yields_of_accepts xsLength ysLength admits.accepts

end Merge
end Shader
