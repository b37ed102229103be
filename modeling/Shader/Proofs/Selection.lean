import Mathlib.Data.List.Nodup
import Shader.Logical.Selectors
import Shader.Proofs.Execution

/-!
Selectors of a masked merge at any widths. Main statement: they are refused exactly when a narrow
source has fewer lanes than are selected; otherwise there is one for each lane of the destination, all
are different, none leads behind the source, and no sum on the way to them wraps.
-/

namespace Shader

inductive SelectorFault where
  | misuse (cause : Misuse)
  | wrapped (a b : UInt32)
deriving DecidableEq, Repr

def checkedSum (a b : UInt32) : Except SelectorFault UInt32 :=
  if a.toNat + b.toNat < UInt32.size then .ok (a + b) else .error (.wrapped a b)

theorem toNat_add_of_lt {a b : UInt32} (small : a.toNat + b.toNat < UInt32.size) :
    (a + b).toNat = a.toNat + b.toNat := by
  rw [UInt32.toNat_add]
  exact Nat.mod_eq_of_lt small

theorem checkedSum_of_lt {a b : UInt32} (small : a.toNat + b.toNat < UInt32.size) :
    checkedSum a b = .ok (a + b) := if_pos small

namespace LaneMask
variable {mask : LaneMask} {dst src next : UInt32}

def selectedBelow (mask : LaneMask) (lane : Nat) : Nat := (List.range lane).countP mask.test

theorem selectedBelow_succ (mask : LaneMask) (lane : Nat) :
    mask.selectedBelow (lane + 1) = mask.selectedBelow lane + if mask.test lane then 1 else 0 := by
  rw [selectedBelow, List.range_succ, List.countP_append, List.countP_singleton]
  rfl

theorem selectedBelow_mono (mask : LaneMask) {lane other : Nat} (before : lane ≤ other) :
    mask.selectedBelow lane ≤ mask.selectedBelow other :=
  (List.range_sublist.2 before).countP_le

theorem selectedBelow_lt {lane other : Nat} (selected : mask.test lane = true)
    (before : lane < other) : mask.selectedBelow lane < mask.selectedBelow other := by
  have up := mask.selectedBelow_mono before
  rw [Nat.succ_eq_add_one, selectedBelow_succ, if_pos selected] at up
  omega

def takenLane (mask : LaneMask) (dst src lane : Nat) : Nat :=
  if src < dst then mask.selectedBelow lane else lane

/-- The lane that goes to a lane of the destination, in the joint numbering. -/
def selector (mask : LaneMask) (dst src lane : Nat) : Nat :=
  if mask.test lane then dst + mask.takenLane dst src lane else lane

def selectorWords (mask : LaneMask) (dst src : UInt32) : List UInt32 :=
  (List.range dst.toNat).map fun lane => UInt32.ofNat (mask.selector dst.toNat src.toNat lane)

def Exhausts (mask : LaneMask) (dst src : UInt32) : Prop :=
  src < dst ∧ src.toNat < mask.selectedBelow dst.toNat

instance (mask : LaneMask) (dst src : UInt32) : Decidable (mask.Exhausts dst src) :=
  inferInstanceAs (Decidable (_ ∧ _))

/-- Selectors with a fault where a sum wraps. The count of lanes taken from a narrow source goes up
before it is known whether there is such a lane. -/
def strictSelectorsFrom (mask : LaneMask) (dst src next : UInt32) :
    List Nat → Except SelectorFault (List UInt32)
  | [] => .ok []
  | lane :: lanes =>
    if mask.test lane then
      if src < dst then do
        let after ← checkedSum next 1
        if next < (← checkedSum dst src) then
          return next :: (← mask.strictSelectorsFrom dst src after lanes)
        else throw (.misuse (.sourceExhausted mask))
      else do
        let here ← checkedSum dst (UInt32.ofNat lane)
        return here :: (← mask.strictSelectorsFrom dst src next lanes)
    else do
      return UInt32.ofNat lane :: (← mask.strictSelectorsFrom dst src next lanes)

def strictSelectors (mask : LaneMask) (dst src : UInt32) : Except SelectorFault (List UInt32) :=
  mask.strictSelectorsFrom dst src dst (List.range dst.toNat)

/-! What one lane does to the count, and from that all of them. -/

/-- Of a narrow source, the lanes in front of `next` went to the selected lanes below this one. -/
def Ready (mask : LaneMask) (dst src next : UInt32) (lane : Nat) : Prop :=
  src < dst → next.toNat = dst.toNat + mask.selectedBelow lane ∧ mask.selectedBelow lane ≤ src.toNat

theorem ready_zero (mask : LaneMask) (dst src : UInt32) : mask.Ready dst src dst 0 :=
  fun _ => ⟨rfl, Nat.zero_le _⟩

theorem Ready.skip {lane : Nat} (ready : mask.Ready dst src next lane)
    (unselected : ¬mask.test lane = true) : mask.Ready dst src next (lane + 1) := by
  intro narrow
  rw [selectedBelow_succ, if_neg unselected]
  exact ready narrow

theorem Ready.stay {lane : Nat} (wide : ¬src < dst) : mask.Ready dst src next lane :=
  fun narrow => absurd narrow wide

theorem Ready.free_iff {lane : Nat} (ready : mask.Ready dst src next lane) (narrow : src < dst)
    (fits : dst.toNat + src.toNat < UInt32.size) :
    next < dst + src ↔ mask.selectedBelow lane < src.toNat := by
  rw [UInt32.lt_iff_toNat_lt, toNat_add_of_lt fits, (ready narrow).1]
  omega

theorem Ready.take {lane : Nat} (ready : mask.Ready dst src next lane) (narrow : src < dst)
    (fits : dst.toNat + src.toNat < UInt32.size) (selected : mask.test lane = true)
    (free : mask.selectedBelow lane < src.toNat) : mask.Ready dst src (next + 1) (lane + 1) := by
  intro _
  have count := (ready narrow).1
  have one : (1 : UInt32).toNat = 1 := rfl
  rw [selectedBelow_succ, if_pos selected, toNat_add_of_lt (by omega)]
  omega

theorem exhausts_of_taken {lane : Nat} (narrow : src < dst) (selected : mask.test lane = true)
    (within : lane < dst.toNat) (taken : ¬mask.selectedBelow lane < src.toNat) :
    mask.Exhausts dst src := by
  have more := selectedBelow_lt selected within
  exact ⟨narrow, by omega⟩

/-- The selectors for the lanes from one on. The induction is on how many lanes are left; the count
of lanes taken is carried along as `Ready`. -/
theorem selectorsFrom_eq (fits : dst.toNat + src.toNat < UInt32.size) {start count : Nat}
    (lanes : start + count = dst.toNat) (ready : mask.Ready dst src next start) :
    mask.selectorsFrom dst src next (List.range' start count) =
      if mask.Exhausts dst src then .error (.sourceExhausted mask)
      else .ok ((List.range' start count).map fun lane =>
        UInt32.ofNat (mask.selector dst.toNat src.toNat lane)) := by
  induction count generalizing start next with
  | zero =>
    have enough : ¬mask.Exhausts dst src := by
      intro ⟨narrow, more⟩
      have few := (ready narrow).2
      rw [← lanes, Nat.add_zero] at more
      omega
    rw [if_neg enough]
    rfl
  | succ count ih =>
    have within : start < dst.toNat := by omega
    rw [List.range'_succ, selectorsFrom]
    by_cases selected : mask.test start = true
    · rw [if_pos selected]
      by_cases narrow : src < dst
      · rw [if_pos narrow]
        by_cases free : mask.selectedBelow start < src.toNat
        · have here : next = UInt32.ofNat (mask.selector dst.toNat src.toNat start) := by
            rw [selector, if_pos selected, takenLane, if_pos (UInt32.lt_iff_toNat_lt.1 narrow),
              ← (ready narrow).1, UInt32.ofNat_toNat]
          rw [if_pos ((ready.free_iff narrow fits).2 free),
            ih (by omega) (ready.take narrow fits selected free), List.map_cons, ← here]
          split <;> rfl
        · rw [if_neg (mt (ready.free_iff narrow fits).1 free),
            if_pos (exhausts_of_taken narrow selected within free)]
      · have here : dst + UInt32.ofNat start =
            UInt32.ofNat (mask.selector dst.toNat src.toNat start) := by
          rw [selector, if_pos selected, takenLane, if_neg (mt UInt32.lt_iff_toNat_lt.2 narrow),
            UInt32.ofNat_add, UInt32.ofNat_toNat]
        rw [if_neg narrow, ih (by omega) (.stay narrow), List.map_cons, ← here]
        split <;> rfl
    · have here : start = mask.selector dst.toNat src.toNat start := (if_neg selected).symm
      rw [if_neg selected, ih (by omega) (ready.skip selected), List.map_cons, ← here]
      split <;> rfl

theorem selectors_eq_ite (fits : dst.toNat + src.toNat < UInt32.size) : mask.selectors dst src =
    if mask.Exhausts dst src then .error (.sourceExhausted mask)
    else .ok (mask.selectorWords dst src) := by
  rw [selectors, selectorWords, List.range_eq_range']
  exact selectorsFrom_eq fits (Nat.zero_add _) (mask.ready_zero dst src)

theorem selectors_eq_ok (fits : dst.toNat + src.toNat < UInt32.size) {selectors : List UInt32} :
    mask.selectors dst src = .ok selectors ↔
      ¬mask.Exhausts dst src ∧ selectors = mask.selectorWords dst src := by
  rw [selectors_eq_ite fits]
  split
  · rename_i exhausted
    simp [exhausted]
  · rename_i enough
    simp [enough, eq_comm]

/-! No sum wraps. -/

theorem strictSelectorsFrom_eq (fits : dst.toNat + src.toNat + 1 < UInt32.size) {lanes : List Nat}
    (within : ∀ lane ∈ lanes, lane < dst.toNat) (below : next.toNat ≤ dst.toNat + src.toNat) :
    mask.strictSelectorsFrom dst src next lanes =
      (mask.selectorsFrom dst src next lanes).mapError .misuse := by
  have one : (1 : UInt32).toNat = 1 := rfl
  -- Putting a selector in front does not touch faults.
  have lifted : ∀ (here : UInt32) (x : Except Misuse (List UInt32)),
      (do return here :: (← x.mapError SelectorFault.misuse)) =
        Except.mapError SelectorFault.misuse (do return here :: (← x)) := by
    intro here x
    cases x <;> rfl
  induction lanes generalizing next with
  | nil => rfl
  | cons lane lanes ih =>
    have rest := fun {next} =>
      @ih next fun other member => within other (List.mem_cons_of_mem _ member)
    have inside := within lane List.mem_cons_self
    rw [strictSelectorsFrom, selectorsFrom]
    split
    · split
      · rename_i narrow
        rw [checkedSum_of_lt (by omega), checkedSum_of_lt (by omega)]
        change (if next < dst + src then _ else _) = _
        split
        · rename_i free
          rw [UInt32.lt_iff_toNat_lt, toNat_add_of_lt (by omega)] at free
          rw [rest (by rw [toNat_add_of_lt] <;> omega)]
          exact lifted _ _
        · rfl
      · rename_i wide
        have index : (UInt32.ofNat lane).toNat = lane := UInt32.toNat_ofNat_of_lt' (by omega)
        rw [UInt32.lt_iff_toNat_lt] at wide
        rw [checkedSum_of_lt (by omega), rest below]
        exact lifted _ _
    · rw [rest below]
      exact lifted _ _

theorem strictSelectors_eq (fits : dst.toNat + src.toNat + 1 < UInt32.size) :
    mask.strictSelectors dst src = (mask.selectors dst src).mapError .misuse :=
  strictSelectorsFrom_eq fits (fun _ => List.mem_range.1) (Nat.le_add_right _ _)

/-! Where selectors lead. -/

theorem takenLane_lt (enough : ¬mask.Exhausts dst src) {lane : Nat} (within : lane < dst.toNat)
    (selected : mask.test lane = true) : mask.takenLane dst.toNat src.toNat lane < src.toNat := by
  unfold takenLane
  split
  · rename_i narrow
    have more := selectedBelow_lt selected within
    have few : ¬src.toNat < mask.selectedBelow dst.toNat := fun exhausted =>
      enough ⟨UInt32.lt_iff_toNat_lt.2 narrow, exhausted⟩
    omega
  · omega

theorem takenLane_increasing {d s lane other : Nat} (selected : mask.test lane = true)
    (before : lane < other) : mask.takenLane d s lane < mask.takenLane d s other := by
  unfold takenLane
  split
  · exact selectedBelow_lt selected before
  · exact before

theorem selector_lt (enough : ¬mask.Exhausts dst src) {lane : Nat} (within : lane < dst.toNat) :
    mask.selector dst.toNat src.toNat lane < dst.toNat + src.toNat := by
  unfold selector
  split
  · rename_i selected
    have inSource := takenLane_lt enough within selected
    omega
  · omega

theorem selector_injective {d s lane other : Nat} (within : lane < d) (inside : other < d)
    (same : mask.selector d s lane = mask.selector d s other) : lane = other := by
  unfold selector at same
  split at same <;> split at same
  · rename_i one two
    rcases Nat.lt_trichotomy lane other with before | rfl | after
    · have := takenLane_increasing (d := d) (s := s) one before
      omega
    · rfl
    · have := takenLane_increasing (d := d) (s := s) two after
      omega
  · omega
  · omega
  · exact same

theorem getElem?_selector {α : Type} {d s lane : Nat} {first second : List α}
    (firstLength : first.length = d) (within : lane < d) :
    (first ++ second)[mask.selector d s lane]? =
      if mask.test lane then second[mask.takenLane d s lane]? else first[lane]? := by
  subst firstLength
  unfold selector
  split
  · rw [List.getElem?_append_right (Nat.le_add_right _ _), Nat.add_sub_cancel_left]
  · exact List.getElem?_append_left within

section Words
variable (fits : dst.toNat + src.toNat < UInt32.size) (enough : ¬mask.Exhausts dst src)
include fits enough

theorem toNat_selector {lane : Nat} (within : lane < dst.toNat) :
    (UInt32.ofNat (mask.selector dst.toNat src.toNat lane)).toNat =
      mask.selector dst.toNat src.toNat lane :=
  UInt32.toNat_ofNat_of_lt' (Nat.lt_trans (selector_lt enough within) fits)

theorem toNat_of_selectorWords {lane : Nat} {k : UInt32}
    (there : (mask.selectorWords dst src)[lane]? = some k) :
    k.toNat = mask.selector dst.toNat src.toNat lane := by
  rw [selectorWords, List.getElem?_map, Option.map_eq_some_iff] at there
  obtain ⟨same, found, rfl⟩ := there
  obtain ⟨within, rfl⟩ := List.getElem?_eq_some_iff.1 found
  rw [List.length_range] at within
  rw [List.getElem_range, toNat_selector fits enough within]

theorem selectorWords_bounded {k : UInt32} (member : k ∈ mask.selectorWords dst src) :
    k.toNat < dst.toNat + src.toNat := by
  obtain ⟨lane, inRange, rfl⟩ := List.mem_map.1 member
  have within := List.mem_range.1 inRange
  rw [toNat_selector fits enough within]
  exact selector_lt enough within

theorem selectorWords_nodup : (mask.selectorWords dst src).Nodup := by
  refine List.nodup_range.map_on ?_
  intro lane member other inside same
  rw [List.mem_range] at member inside
  have same := congrArg UInt32.toNat same
  rw [toNat_selector fits enough member, toNat_selector fits enough inside] at same
  exact selector_injective member inside same

theorem exists_shuffled {α : Type} {first second : List α} (firstLength : first.length = dst.toNat)
    (secondLength : second.length = src.toNat) : ∃ chosen,
      List.Forall₂ (fun k c => (first ++ second)[k.toNat]? = some c)
        (mask.selectorWords dst src) chosen ∧
      ∀ lane < dst.toNat, chosen[lane]? =
        if mask.test lane then second[mask.takenLane dst.toNat src.toNat lane]?
        else first[lane]? := by
  have there : ∀ k ∈ mask.selectorWords dst src, ∃ c, (first ++ second)[k.toNat]? = some c := by
    intro k member
    have bounded : k.toNat < (first ++ second).length := by
      rw [List.length_append, firstLength, secondLength]
      exact selectorWords_bounded fits enough member
    exact ⟨(first ++ second)[k.toNat], List.getElem?_eq_getElem bounded⟩
  obtain ⟨chosen, found⟩ := exists_forall₂ there
  refine ⟨chosen, found, ?_⟩
  intro lane within
  have listed : lane < (mask.selectorWords dst src).length := by simpa [selectorWords] using within
  have word := List.getElem?_eq_getElem listed
  obtain ⟨c, here, same⟩ := forall₂_getElem? found word
  rw [toNat_of_selectorWords fits enough word, getElem?_selector firstLength within] at same
  rw [here, same]

end Words

/-- Selectors are refused exactly when a narrow source has fewer lanes than the mask selects. Otherwise
there is one for each lane of the destination: the lane itself where the mask selects nothing, the
same lane of the source where that is wide enough, and the next free lane of a narrow one. They are
all different and none leads behind the source, so a shuffle by them finds every lane; and no sum on
the way wraps. -/
theorem selectors_exact (mask : LaneMask) (dst src : UInt32)
    (fits : dst.toNat + src.toNat + 4 < UInt32.size) :
    (∀ cause, mask.selectors dst src = .error cause ↔
      cause = .sourceExhausted mask ∧ mask.Exhausts dst src) ∧
    (¬mask.Exhausts dst src → ∃ selectors, mask.selectors dst src = .ok selectors ∧
      selectors.length = dst.toNat ∧
      (∀ lane k, selectors[lane]? = some k → k.toNat =
        if mask.test lane then
          if src < dst then dst.toNat + mask.selectedBelow lane else dst.toNat + lane
        else lane) ∧
      (∀ k ∈ selectors, k.toNat < dst.toNat + src.toNat) ∧ selectors.Nodup ∧
      ∀ (s : Machine) (id type p q : ResultId) (first second : List Contents),
        s.values.get? p = some (.composite first) → s.values.get? q = some (.composite second) →
        first.length = dst.toNat → second.length = src.toNat → ∃ chosen,
          Exec.step ⟨.opVectorShuffle, some id, some type,
            .ref p :: .ref q :: selectors.map .literal⟩ s =
              .ok () (s.defining id (.composite chosen)) ∧
          chosen.length = dst.toNat ∧ ∀ lane < dst.toNat, chosen[lane]? =
            if mask.test lane then second[if src < dst then mask.selectedBelow lane else lane]?
            else first[lane]?) ∧
    mask.strictSelectors dst src = (mask.selectors dst src).mapError .misuse := by
  refine ⟨?_, ?_, strictSelectors_eq (by omega)⟩
  · intro cause
    rw [selectors_eq_ite (by omega)]
    split
    · rename_i exhausted
      simp [exhausted, eq_comm]
    · rename_i enough
      simp [enough]
  · intro enough
    have fits : dst.toNat + src.toNat < UInt32.size := by omega
    refine ⟨_, (selectors_eq_ok fits).2 ⟨enough, rfl⟩, by simp [selectorWords], ?_,
      fun k => selectorWords_bounded fits enough, selectorWords_nodup fits enough, ?_⟩
    · intro lane k there
      rw [toNat_of_selectorWords fits enough there, selector, takenLane]
      simp only [UInt32.lt_iff_toNat_lt]
      split
      · split <;> rfl
      · rfl
    · intro s id type p q first second one two firstLength secondLength
      obtain ⟨chosen, found, lanes⟩ := exists_shuffled fits enough firstLength secondLength
      refine ⟨chosen, Exec.step_of_ok (Machine.step_vectorShuffle one two found), ?_, ?_⟩
      · simp [← found.length_eq, selectorWords]
      · simpa only [UInt32.lt_iff_toNat_lt, takenLane] using lanes

def fourAndTwo : Machine where
  values := Table.insert
    (Table.insert ∅ ⟨1⟩ (.composite [.scalar 10, .scalar 11, .scalar 12, .scalar 13])) ⟨2⟩
    (.composite [.scalar 20, .scalar 21])

theorem pair_shuffled_into_four : (4 : UInt32).toNat + (2 : UInt32).toNat + 4 < UInt32.size ∧
    (∃ selectors chosen, (ofBits 10).selectors 4 2 = .ok selectors ∧ selectors.Nodup ∧
      Exec.step ⟨.opVectorShuffle, some ⟨3⟩, some ⟨4⟩,
        .ref ⟨1⟩ :: .ref ⟨2⟩ :: selectors.map .literal⟩ fourAndTwo =
          .ok () (fourAndTwo.defining ⟨3⟩ (.composite chosen)) ∧
      chosen[1]? = some (.scalar 20) ∧ chosen[2]? = some (.scalar 12) ∧
      chosen[3]? = some (.scalar 21)) ∧
    (ofBits 7).selectors 4 2 = .error (.sourceExhausted (ofBits 7)) := by
  have fits : (4 : UInt32).toNat + (2 : UInt32).toNat + 4 < UInt32.size := by decide
  obtain ⟨-, packed, -⟩ := selectors_exact (ofBits 10) 4 2 fits
  obtain ⟨selectors, found, -, -, -, distinct, shuffles⟩ := packed (by decide)
  obtain ⟨chosen, run, -, lanes⟩ :=
    shuffles fourAndTwo ⟨3⟩ ⟨4⟩ ⟨1⟩ ⟨2⟩ _ _ rfl rfl rfl rfl
  obtain ⟨refused, -⟩ := selectors_exact (ofBits 7) 4 2 fits
  exact ⟨fits, ⟨selectors, chosen, found, distinct, run, lanes 1 (by decide), lanes 2 (by decide),
    lanes 3 (by decide)⟩, (refused _).2 ⟨rfl, by decide⟩⟩

end LaneMask
end Shader
