import Shader.Proofs.LaneMachine
import Shader.Proofs.Paths
import Shader.Proofs.Persistence

/-!
Masked writes on their own: whatever module the code is emitted into and whatever machine runs it.
Main statements: a store writes the selected lanes of one cell and nothing else, by the short way
and by the long one; and selected lanes that a destination does not have play no part in a merge,
except that a scalar may be sent to one of them.
-/

namespace Shader
open Contents (ofParts)

namespace Build
variable {α β : Type}

def emitted (x : Build α) (m : Module) : List Instruction := (x m).2.code.drop m.code.length

theorem emitted_eq {x : Build α} {m : Module} {is : List Instruction}
    (code : (x m).2.code = m.code ++ is) : x.emitted m = is := by
  simp [emitted, code]

theorem code_eq_append_emitted {x : Build α} [Traced x] {m : Module} (fit : (x m).2.IdsFit) :
    (x m).2.code = m.code ++ x.emitted m := by
  obtain ⟨log, trace⟩ := Traced.trace (x := x) m
  obtain ⟨is, same⟩ := (trace.extends fit).code
  rw [emitted_eq same.symm, same]

end Build

open Build (Keeps)

theorem LogicalType.emitted_compute (t : LogicalType) (opcode : Opcode) (operands : List Operand)
    (m : Module) : (t.compute opcode operands).emitted m =
      [⟨opcode, some (t.declare m).2.freshId, some (t.declare m).1, operands⟩] := by
  refine Build.emitted_eq ?_
  change (t.declare m).2.code ++
    [⟨opcode, some (t.declare m).2.freshId, some (t.declare m).1, operands⟩] = _
  rw [Keeps.eq Module.code t.declare m]

namespace Machine

def Fresh (s : Machine) (m : Module) : Prop := ∀ id, m.issued < id.index → s.values.get? id = none

/-- The instructions between two modules lead from one machine to another that has more values and
the same variables. -/
structure Computes (s : Machine) (m : Module) (is : List Instruction) (m' : Module) (t : Machine) :
    Prop where
  code : m'.code = m.code ++ is
  run : s.execute is = .ok t
  memory : t.memory = s.memory
  values : ∀ id c, s.values.get? id = some c → t.values.get? id = some c
  fresh : t.Fresh m'

section Computing
variable {s t u : Machine} {m m' : Module}

theorem Computes.refl (fresh : s.Fresh m) : s.Computes m [] m s where
  code := by simp
  run := rfl
  memory := rfl
  values _ _ known := known
  fresh := fresh

theorem Computes.trans {m₁ : Module} {is js : List Instruction} (first : s.Computes m is m₁ t)
    (second : t.Computes m₁ js m' u) : s.Computes m (is ++ js) m' u where
  code := by rw [second.code, first.code, List.append_assoc]
  run := by
    rw [execute_append]
    exact bind_eq_ok.2 ⟨t, first.run, second.run⟩
  memory := second.memory.trans first.memory
  values id c known := second.values id c (first.values id c known)
  fresh := second.fresh

theorem Computes.cell {is : List Instruction} (computes : s.Computes m is m' t) {id : ResultId}
    {place : ResultId × List UInt32} (found : s.cell id = .ok place) : t.cell id = .ok place := by
  unfold Machine.cell at found ⊢
  rw [computes.memory]
  split
  · rename_i known
    rwa [if_pos known] at found
  · rename_i unknown
    rw [if_neg unknown] at found
    split at found
    · rename_i var path known
      rw [computes.values _ _ known]
      exact found
    · cases found

theorem Fresh.compute (fresh : s.Fresh m) (type : LogicalType) {opcode : Opcode}
    {operands : List Operand} {c : Contents}
    (step : ∀ id typeId,
      s.step ⟨opcode, some id, some typeId, operands⟩ = .ok (s.defining id c)) :
    (type.compute opcode operands).Ensures m fun v m' =>
      ∃ is t, s.Computes m is m' t ∧ t.values.get? v.id = some c := by
  intro fit
  have grown : m.issued ≤ (type.declare m).2.issued :=
    Build.Monotone.issued_le (x := type.declare) m
  have code : (type.declare m).2.code = m.code := Keeps.eq Module.code type.declare m
  have answer : type.compute opcode operands m =
      (⟨type, (type.declare m).2.freshId⟩,
        (type.declare m).2.addValue opcode (type.declare m).1 operands) := rfl
  rw [answer] at fit ⊢
  generalize (type.declare m).2 = m₁ at *
  have fit₁ : m₁.IdsFit := fit.of_le (Nat.le_succ _)
  have index := Module.index_freshId fit₁
  refine ⟨[⟨opcode, some m₁.freshId, some (type.declare m).1, operands⟩], s.defining m₁.freshId c,
    ?_, Table.get?_insert_self ..⟩
  have new : s.values.get? m₁.freshId = none := fresh _ (by omega)
  refine ⟨?_, bind_eq_ok.2 ⟨_, step _ _, rfl⟩, rfl, ?_, ?_⟩
  · change m₁.code ++ _ = m.code ++ _
    rw [code]
  · intro id d known
    have differ : id ≠ m₁.freshId := by
      rintro rfl
      rw [new] at known
      cases known
    rw [Machine.defining, Table.get?_insert_of_ne _ _ differ, known]
  · intro id later
    change m₁.issued + 1 < id.index at later
    have differ : id ≠ m₁.freshId := by
      rintro rfl
      omega
    rw [Machine.defining, Table.get?_insert_of_ne _ _ differ]
    exact fresh id (by omega)

end Computing

/-- The second machine differs from the first in one cell of a variable, and in that it may have
more values. -/
structure Rewrites (s : Machine) (var : ResultId) (path : List UInt32) (new : Contents)
    (t : Machine) : Prop where
  cell : ∃ old whole, s.memory.get? var = some old ∧ t.memory.get? var = some whole ∧
    whole.read path = .ok new ∧ ∀ q, ¬path <+: q → ¬q <+: path → whole.read q = old.read q
  others : ∀ id, id ≠ var → t.memory.get? id = s.memory.get? id
  values : ∀ id c, s.values.get? id = some c → t.values.get? id = some c

end Machine

section Writing
variable {m : Module} {s : Machine} {var : ResultId} {path : List UInt32} {whole : Contents}

theorem Place.load_computes {p : Place} {c : Contents} (fresh : s.Fresh m)
    (place : s.cell p.id = .ok (var, path)) (known : s.memory.get? var = some whole)
    (read : whole.read path = .ok c) :
    p.load.Ensures m fun v m' => ∃ is t, s.Computes m is m' t ∧ t.values.get? v.id = some c :=
  fresh.compute _ fun _ _ => Machine.step_load place known read

/-- Executing what a plan emits gives the lanes that the plan yields. -/
theorem Merge.emit_computes {dst src : Value} {plan : Merge} {xs ys zs : List Contents}
    (fresh : s.Fresh m) (dstValue : s.values.get? dst.id = some (ofParts xs))
    (srcValue : s.values.get? src.id = some (ofParts ys)) (yields : plan.Yields xs ys zs)
    (length : zs.length = xs.length) (small : xs.length ≤ 4) :
    (plan.emit dst src).Ensures m fun v m' =>
      ∃ is t, s.Computes m is m' t ∧ t.values.get? v.id = some (ofParts zs) := by
  cases plan with
  | keep =>
    obtain rfl : zs = xs := yields
    exact .pure ⟨[], s, .refl fresh, dstValue⟩
  | replace =>
    obtain rfl : zs = ys := yields
    exact .pure ⟨[], s, .refl fresh, srcValue⟩
  | insert lane =>
    obtain ⟨x, rfl, several, within, rfl⟩ := yields
    have written := Contents.write_ofParts several small within x
    exact fresh.compute dst.type fun _ _ => Machine.step_compositeInsert srcValue dstValue written
  | shuffle selectors =>
    obtain ⟨several, more, lanes⟩ := yields
    rw [Contents.ofParts_of_several several] at dstValue
    rw [Contents.ofParts_of_several more] at srcValue
    rw [Contents.ofParts_of_several (length ▸ several)]
    exact fresh.compute dst.type fun _ _ => Machine.step_vectorShuffle dstValue srcValue lanes

theorem Machine.store_rewrites {p object : ResultId} {x old : Contents}
    (place : s.cell p = .ok (var, path)) (known : s.memory.get? var = some whole)
    (read : whole.read path = .ok old) (value : s.values.get? object = some x) :
    ∃ t, s.step ⟨.opStore, none, none, [.ref p, .ref object]⟩ = .ok t ∧
      s.Rewrites var path x t := by
  obtain ⟨changed, written⟩ := Contents.exists_write_of_read read x
  refine ⟨s.storing var changed, step_store place value known written,
    ⟨whole, changed, known, ?_, ?_, ?_⟩, ?_, fun _ _ known => known⟩
  · exact Table.get?_insert_self ..
  · exact Contents.read_write_self written
  · exact fun q notAbove notBelow => Contents.read_write_apart written notAbove notBelow
  · exact fun id differ => Table.get?_insert_of_ne _ _ differ

theorem Place.storeMerged_rewrites {p : Place} {v : Value} {plan : Merge} {xs ys zs : List Contents}
    (fresh : s.Fresh m) (place : s.cell p.id = .ok (var, path))
    (known : s.memory.get? var = some whole) (read : whole.read path = .ok (ofParts xs))
    (value : s.values.get? v.id = some (ofParts ys)) (yields : plan.Yields xs ys zs)
    (length : zs.length = xs.length) (small : xs.length ≤ 4) :
    (p.storeMerged v plan).Ensures m fun _ m' => ∃ is t, m'.code = m.code ++ is ∧
      s.execute is = .ok t ∧ s.Rewrites var path (ofParts zs) t := by
  refine (load_computes fresh place known read).bind inferInstance ?_
  rintro current m₁ ⟨is, t₁, loads, currentValue⟩
  refine (Merge.emit_computes loads.fresh currentValue (loads.values _ _ value) yields length
    small).bind inferInstance ?_
  rintro merged m₂ ⟨js, t₂, merges, mergedValue⟩
  have computes := loads.trans merges
  obtain ⟨t₃, stores, rewrites⟩ := Machine.store_rewrites (computes.cell place)
    (computes.memory ▸ known) read mergedValue
  intro _
  refine ⟨is ++ js ++ [⟨.opStore, none, none, [.ref p.id, .ref merged.id]⟩], t₃, ?_, ?_, ?_⟩
  · change m₂.code ++ _ = _
    rw [computes.code, List.append_assoc]
  · rw [Machine.execute_append]
    exact bind_eq_ok.2 ⟨t₂, computes.run, bind_eq_ok.2 ⟨t₃, stores, rfl⟩⟩
  · obtain ⟨cell, others, values⟩ := rewrites
    rw [computes.memory] at cell others
    exact ⟨cell, others, fun id c here => values id c (computes.values id c here)⟩

theorem Place.store_rewrites {p : Place} {v : Value} {mask : LaneMask} {action : Build Unit}
    {xs ys : List Contents} (stored : p.store v mask = .ok action) (fit : (action m).2.IdsFit)
    (accepts : mask.Accepts p.type.value.width.count v.type.width.count) (fresh : s.Fresh m)
    (place : s.cell p.id = .ok (var, path)) (known : s.memory.get? var = some whole)
    (read : whole.read path = .ok (ofParts xs)) (xsLength : xs.length = p.type.value.width.count)
    (value : s.values.get? v.id = some (ofParts ys)) (ysLength : ys.length = v.type.width.count) :
    ∃ t, s.execute (action.emitted m) = .ok t ∧
      s.Rewrites var path (ofParts (mask.mergeLanes xs ys)) t := by
  rcases store_eq_ok stored with ⟨same, all, rfl⟩ | ⟨plan, planned, rfl⟩
  · -- Every lane is selected, so the merged lanes are those of the value.
    rw [same] at ysLength
    rw [all, LaneMask.mergeLanes_firstLanes xsLength ysLength]
    have code : (Build.store p.id v.id m).2.code =
        m.code ++ [⟨.opStore, none, none, [.ref p.id, .ref v.id]⟩] := rfl
    rw [Build.emitted_eq code]
    obtain ⟨t, step, rewrites⟩ := Machine.store_rewrites place known read value
    exact ⟨t, bind_eq_ok.2 ⟨t, step, rfl⟩, rewrites⟩
  · obtain ⟨plan', planned', yields⟩ := Merge.plan_yields_of_accepts xsLength ysLength accepts
    obtain rfl : plan = plan' := Except.ok.inj (planned.symm.trans planned')
    have small : xs.length ≤ 4 := xsLength ▸ Width.count_le_four _
    obtain ⟨is, t, code, run, rewrites⟩ := storeMerged_rewrites fresh place known read value yields
      (LaneMask.length_mergeLanes ..) small fit
    rw [Build.emitted_eq code]
    exact ⟨t, run, rewrites⟩

end Writing

theorem Machine.fresh_of_bound {m : Module} {s : Machine} (fit : m.IdsFit)
    (unset : ∀ id, m.bound ≤ id.word → s.values.get? id = none) : s.Fresh m := by
  intro id later
  refine unset id (UInt32.le_iff_toNat_le.2 ?_)
  rw [Module.toNat_bound fit]
  exact later

theorem Width.count_pos (w : Width) : 0 < w.count := by
  cases w <;> decide

theorem Width.eq_one_of_count {w : Width} (single : w.count = 1) : w = .one := by
  cases w with
  | one => rfl
  | _ => cases single

theorem Place.exists_store {p : Place} {v : Value} {mask : LaneMask}
    (accepts : mask.Accepts p.type.value.width.count v.type.width.count) :
    ∃ action, p.store v mask = .ok action := by
  unfold store
  simp only
  split
  · exact ⟨_, rfl⟩
  · obtain ⟨plan, planned⟩ := Merge.exists_plan accepts
    exact ⟨_, bind_eq_ok.2 ⟨plan, planned, rfl⟩⟩

/-- A store that can be carried out is never refused. Its code writes to each lane of the cell that
the place stands for what the mask sends there, and leaves other lanes, cells, variables and values
as they were. -/
theorem Place.store_writes_selected_lanes (m : Module) (p : Place) (v : Value) (mask : LaneMask)
    (accepts : mask.Accepts p.type.value.width.count v.type.width.count) :
    ∃ action, p.store v mask = .ok action ∧ ((action m).2.IdsFit →
      (action m).2.code = m.code ++ action.emitted m ∧
      ∀ (s : Machine) (var : ResultId) (path : List UInt32) (whole : Contents)
        (xs ys : List Contents),
        (∀ id, m.bound ≤ id.word → s.values.get? id = none) →
        s.cell p.id = .ok (var, path) → s.memory.get? var = some whole →
        whole.read path = .ok (ofParts xs) → xs.length = p.type.value.width.count →
        s.values.get? v.id = some (ofParts ys) → ys.length = v.type.width.count →
        ∃ t zs, s.execute (action.emitted m) = .ok t ∧ s.Rewrites var path (ofParts zs) t ∧
          zs.length = xs.length ∧ ∀ lane < xs.length, zs[lane]? =
            (mask.sourceLane xs.length ys.length lane).elim xs[lane]? fun k => ys[k]?) := by
  obtain ⟨action, stored⟩ := exists_store accepts
  have traced : Build.Traced action := by
    rcases store_eq_ok stored with ⟨-, -, rfl⟩ | ⟨plan, -, rfl⟩ <;> infer_instance
  refine ⟨action, stored, fun fit => ⟨Build.code_eq_append_emitted fit, ?_⟩⟩
  intro s var path whole xs ys unset place known read xsLength value ysLength
  have fitHere : m.IdsFit := by
    obtain ⟨log, trace⟩ := traced.trace m
    exact fit.of_le (trace.extends fit).issued
  obtain ⟨t, run, rewrites⟩ := store_rewrites stored fit accepts
    (Machine.fresh_of_bound fitHere unset) place known read xsLength value ysLength
  refine ⟨t, mask.mergeLanes xs ys, run, rewrites, LaneMask.length_mergeLanes .., ?_⟩
  intro lane within
  rw [← xsLength, ← ysLength] at accepts
  exact LaneMask.getElem?_mergeLanes (ysLength ▸ Width.count_pos _) accepts within

def sampleMachine : Machine where
  memory := (∅ : Table Contents).insert ⟨1⟩
    (.composite [.composite [.scalar 1, .scalar 2, .scalar 3, .scalar 4], .scalar 5])
  values := (((∅ : Table Contents).insert ⟨2⟩ (.scalar 6)).insert ⟨3⟩
    (.composite [.scalar 7, .scalar 8])).insert ⟨4⟩ (.address ⟨1⟩ [0])

theorem sampleMachine_unset {id : ResultId} (later : 5 ≤ id.word) :
    sampleMachine.values.get? id = none := by
  have differ : ∀ known : ResultId, known.word < 5 → id ≠ known := by
    rintro known small rfl
    exact absurd later (UInt32.not_le.2 small)
  rw [sampleMachine, Table.get?_insert_of_ne _ _ (differ ⟨4⟩ (by decide)),
    Table.get?_insert_of_ne _ _ (differ ⟨3⟩ (by decide)),
    Table.get?_insert_of_ne _ _ (differ ⟨2⟩ (by decide))]
  rfl

theorem pair_packed_into_block :
    ∃ action t zs,
      Place.store ⟨⟨.float4, .output⟩, ⟨4⟩⟩ ⟨⟨.float32, .two, 0⟩, ⟨3⟩⟩ ⟨true, false, true, false⟩ =
        .ok action ∧
      sampleMachine.execute (action.emitted { Module.empty with issued := 4 }) = .ok t ∧
      sampleMachine.Rewrites ⟨1⟩ [0] (ofParts zs) t ∧
      zs[0]? = some (.scalar 7) ∧ zs[1]? = some (.scalar 2) ∧ zs[2]? = some (.scalar 8) ∧
      zs[3]? = some (.scalar 4) := by
  have fits : (Place.store ⟨⟨.float4, .output⟩, ⟨4⟩⟩ ⟨⟨.float32, .two, 0⟩, ⟨3⟩⟩
      ⟨true, false, true, false⟩).toOption.all
      (fun action => decide (action { Module.empty with issued := 4 }).2.IdsFit) = true := by
    decide +kernel
  obtain ⟨action, stored, writes⟩ := Place.store_writes_selected_lanes
    { Module.empty with issued := 4 } ⟨⟨.float4, .output⟩, ⟨4⟩⟩ ⟨⟨.float32, .two, 0⟩, ⟨3⟩⟩
    ⟨true, false, true, false⟩ (by decide)
  have fit : (action { Module.empty with issued := 4 }).2.IdsFit := by
    rw [stored] at fits
    exact of_decide_eq_true fits
  obtain ⟨t, zs, run, rewrites, -, lanes⟩ := (writes fit).2 sampleMachine ⟨1⟩ [0] _
    [.scalar 1, .scalar 2, .scalar 3, .scalar 4] [.scalar 7, .scalar 8]
    (fun _ later => sampleMachine_unset later) rfl rfl rfl rfl rfl rfl
  exact ⟨action, t, zs, stored, run, rewrites, lanes 0 (by decide), lanes 1 (by decide),
    lanes 2 (by decide), lanes 3 (by decide)⟩

/-! Selected lanes that a destination does not have. -/

namespace LaneMask

def below (mask : LaneMask) (count : Nat) : LaneMask :=
  ⟨mask.x && decide (0 < count), mask.y && decide (1 < count), mask.z && decide (2 < count),
    mask.w && decide (3 < count)⟩

variable {mask : LaneMask} {count dst src lane : Nat}

theorem test_below (mask : LaneMask) (count lane : Nat) :
    (mask.below count).test lane = (mask.test lane && decide (lane < count)) := by
  match lane with
  | 0 | 1 | 2 | 3 => rfl
  | _ + 4 => rfl

theorem lanes_below (mask : LaneMask) (count : Nat) :
    (mask.below count).lanes = mask.lanes.filter (· < count) := by
  rw [lanes, lanes, List.filter_filter]
  exact List.filter_congr fun lane _ => by rw [test_below, Bool.and_comm]

theorem first?_below (inside : ∀ lane ∈ mask.first?, lane < count) :
    (mask.below count).first? = mask.first? := by
  unfold first? at *
  rw [lanes_below]
  cases selected : mask.lanes with
  | nil => rfl
  | cons lane rest =>
    have within : lane < count := inside lane (by simp [selected])
    simp [within]

theorem first?_below_of_le (first : mask.first? = some lane) (beyond : count ≤ lane) :
    (mask.below count).first? = none := by
  have ascending : mask.lanes.Pairwise (· < ·) :=
    List.Pairwise.filter _ (by decide : [0, 1, 2, 3].Pairwise (· < ·))
  obtain ⟨rest, selected⟩ := List.head?_eq_some_iff.1 first
  rw [selected, List.pairwise_cons] at ascending
  rw [first?, lanes_below, List.head?_eq_none_iff, List.filter_eq_nil_iff, selected]
  intro other member
  rcases List.mem_cons.1 member with rfl | later
  · simpa using beyond
  · have := ascending.1 other later
    simp only [decide_eq_true_eq]
    omega

theorem lt_four_of_first? (first : mask.first? = some lane) : lane < 4 := by
  have member : lane ∈ [0, 1, 2, 3].filter mask.test := List.mem_of_head? first
  have listed : lane ∈ [0, 1, 2, 3] := List.mem_of_mem_filter member
  simp only [List.mem_cons, List.not_mem_nil, or_false] at listed
  omega

theorem sourceLane_below (inside : src = 1 → ∀ lane ∈ mask.first?, lane < dst)
    (within : lane < dst) :
    (mask.below dst).sourceLane dst src lane = mask.sourceLane dst src lane := by
  have counts : (List.range lane).countP (mask.below dst).test =
      (List.range lane).countP mask.test := by
    refine List.countP_congr fun other member => ?_
    have : other < dst := Nat.lt_trans (List.mem_range.1 member) within
    simp [test_below, this]
  unfold sourceLane
  rw [test_below, counts]
  by_cases scalar : src = 1
  · simp [within, first?_below (inside scalar)]
  · simp [within, scalar]

theorem mergeLanes_below {α : Type} {xs ys : List α}
    (inside : ys.length = 1 → ∀ lane ∈ mask.first?, lane < xs.length) :
    (mask.below xs.length).mergeLanes xs ys = mask.mergeLanes xs ys := by
  refine List.ext_getElem (by rw [length_mergeLanes, length_mergeLanes]) ?_
  intro lane within _
  rw [length_mergeLanes] at within
  simp only [mergeLanes, List.getElem_mapIdx, sourceLane_below inside within]

theorem selectorsFrom_congr {mask' : LaneMask} {d s next : UInt32} {lanes : List Nat}
    {selectors : List UInt32} (agree : ∀ lane ∈ lanes, mask'.test lane = mask.test lane)
    (found : mask.selectorsFrom d s next lanes = .ok selectors) :
    mask'.selectorsFrom d s next lanes = .ok selectors := by
  induction lanes generalizing next selectors with
  | nil => exact found
  | cons lane lanes ih =>
    have rest := fun {next selectors} =>
      @ih next selectors fun other member => agree other (List.mem_cons_of_mem lane member)
    unfold selectorsFrom at found ⊢
    rw [agree lane List.mem_cons_self]
    split at found
    · split at found
      · split at found
        · rename_i selected narrow free
          obtain ⟨later, here, same⟩ := bind_eq_ok.1 found
          rw [if_pos selected, if_pos narrow, if_pos free]
          exact bind_eq_ok.2 ⟨later, rest here, same⟩
        · cases found
      · rename_i selected wide
        obtain ⟨later, here, same⟩ := bind_eq_ok.1 found
        rw [if_pos selected, if_neg wide]
        exact bind_eq_ok.2 ⟨later, rest here, same⟩
    · rename_i unselected
      obtain ⟨later, here, same⟩ := bind_eq_ok.1 found
      rw [if_neg unselected]
      exact bind_eq_ok.2 ⟨later, rest here, same⟩

theorem countP_le_of_selectors {dst src : Width} {selectors : List UInt32}
    (found : mask.selectors dst.word src.word = .ok selectors) (narrow : src.count < dst.count) :
    (List.range dst.count).countP mask.test ≤ src.count := by
  have enough := ((selectors_eq_ok (Width.words_fit dst src)).1 found).1
  have narrow : src.word < dst.word := by
    rw [UInt32.lt_iff_toNat_lt, Width.toNat_word, Width.toNat_word]
    exact narrow
  have few : ¬src.word.toNat < mask.selectedBelow dst.word.toNat := fun more => enough ⟨narrow, more⟩
  rw [Width.toNat_word, Width.toNat_word] at few
  exact Nat.not_lt.1 few

end LaneMask

namespace Merge
variable {dst src : Width} {mask : LaneMask} {merge : Merge}

theorem plan_scalar (vector : dst ≠ .one) : plan dst .one mask =
    .ok (mask.first?.elim keep insert) := by
  unfold plan
  rw [if_neg vector, if_pos rfl]
  cases mask.first? <;> rfl

theorem plan_vectors (vector : dst ≠ .one) (several : src ≠ .one) :
    plan dst src mask = .ok merge ↔
      ∃ selectors, mask.selectors dst.word src.word = .ok selectors ∧
        merge = shuffle selectors := by
  unfold plan
  rw [if_neg vector, if_neg several, bind_eq_ok]
  simp [pure, Except.pure, eq_comm]

theorem accepts_of_plan (vector : dst ≠ .one)
    (inside : src = .one → ∀ lane ∈ mask.first?, lane < dst.count)
    (planned : plan dst src mask = .ok merge) : mask.Accepts dst.count src.count := by
  refine ⟨fun one => absurd (Width.eq_one_of_count one) vector,
    fun _ one => inside (Width.eq_one_of_count one), ?_⟩
  intro several narrow
  obtain ⟨selectors, found, -⟩ := (plan_vectors vector (by rintro rfl; exact several rfl)).1 planned
  exact LaneMask.countP_le_of_selectors found narrow

theorem plan_below (vector : dst ≠ .one)
    (inside : src = .one → ∀ lane ∈ mask.first?, lane < dst.count)
    (planned : plan dst src mask = .ok merge) :
    plan dst src (mask.below dst.count) = .ok merge := by
  by_cases scalar : src = .one
  · subst scalar
    rw [plan_scalar vector] at planned ⊢
    rw [LaneMask.first?_below (inside rfl), planned]
  · obtain ⟨selectors, found, rfl⟩ := (plan_vectors vector scalar).1 planned
    refine (plan_vectors vector scalar).2 ⟨selectors, LaneMask.selectorsFrom_congr ?_ found, rfl⟩
    intro lane member
    rw [List.mem_range, dst.toNat_word] at member
    simp [LaneMask.test_below, member]

end Merge

theorem Machine.step_insert_beyond {s : Machine} {id type object composite : ResultId}
    {x : Contents} {cs : List Contents} {index : UInt32} (inserted : s.values.get? object = some x)
    (known : s.values.get? composite = some (.composite cs)) (beyond : cs.length ≤ index.toNat) :
    s.step ⟨.opCompositeInsert, some id, some type, [.ref object, .ref composite, .literal index]⟩ =
      .error (.indexOutOfBounds index cs.length) := by
  have missing :
      (Contents.composite cs).part index = .error (.indexOutOfBounds index cs.length) := by
    simp [Contents.part, List.getElem?_eq_none beyond]
  have object : s.value object = .ok x := value_of_get inserted
  have composite : s.value composite = .ok (.composite cs) := value_of_get known
  simp [Machine.step, Machine.effect, Instruction.requireRef, Instruction.refAt?, Operand.ref?,
    Operand.literal?, object, composite, Contents.write_cons, missing, bind, Except.bind]

namespace Value
variable {m : Module} {s : Machine} {dst src : Value} {mask : LaneMask} {merge : Merge}
  {xs ys : List Contents}

/-- A merge is planned, what it emits can be executed, and the merged value is this. -/
def MergesTo (dst src : Value) (mask : LaneMask) (m : Module) (s : Machine) (c : Contents) : Prop :=
  ∃ action t, dst.merge src mask = .ok action ∧ s.execute (action.emitted m) = .ok t ∧
    t.values.get? (action m).1.id = some c

theorem merge_eq_ok {action : Build Value} : dst.merge src mask = .ok action ↔
    ∃ merge, Merge.plan dst.type.width src.type.width mask = .ok merge ∧
      merge.emit dst src = action := by
  rw [Value.merge, bind_eq_ok]
  simp [pure, Except.pure]

theorem mergesTo_of_accepts (planned : Merge.plan dst.type.width src.type.width mask = .ok merge)
    (fit : (merge.emit dst src m).2.IdsFit)
    (accepts : mask.Accepts dst.type.width.count src.type.width.count) (fresh : s.Fresh m)
    (dstValue : s.values.get? dst.id = some (ofParts xs))
    (xsLength : xs.length = dst.type.width.count)
    (srcValue : s.values.get? src.id = some (ofParts ys))
    (ysLength : ys.length = src.type.width.count) :
    dst.MergesTo src mask m s (ofParts (mask.mergeLanes xs ys)) := by
  obtain ⟨merge', planned', yields⟩ := Merge.plan_yields_of_accepts xsLength ysLength accepts
  obtain rfl : merge = merge' := Except.ok.inj (planned.symm.trans planned')
  have small : xs.length ≤ 4 := xsLength ▸ Width.count_le_four _
  obtain ⟨is, t, computes, value⟩ := Merge.emit_computes fresh dstValue srcValue yields
    (LaneMask.length_mergeLanes ..) small fit
  refine ⟨_, t, merge_eq_ok.2 ⟨merge, planned, rfl⟩, ?_, value⟩
  rw [Build.emitted_eq computes.code]
  exact computes.run

theorem not_mergesTo_of_beyond {lane : Nat} (vector : dst.type.width ≠ .one)
    (scalar : src.type.width = .one) (first : mask.first? = some lane)
    (beyond : dst.type.width.count ≤ lane)
    (dstValue : s.values.get? dst.id = some (ofParts xs))
    (xsLength : xs.length = dst.type.width.count)
    (srcValue : s.values.get? src.id = some (ofParts ys)) (c : Contents) :
    ¬dst.MergesTo src mask m s c := by
  rintro ⟨action, t, merged, run, -⟩
  obtain ⟨merge, planned, rfl⟩ := merge_eq_ok.1 merged
  rw [scalar, Merge.plan_scalar vector, first] at planned
  cases planned
  have several : 2 ≤ xs.length := by
    rw [xsLength]
    cases width : dst.type.width with
    | one => exact absurd width vector
    | _ => decide
  have small : lane < 4 := LaneMask.lt_four_of_first? first
  have index : (UInt32.ofNat lane).toNat = lane := UInt32.toNat_ofNat_of_lt' (by
    simp only [UInt32.size]
    omega)
  have outside : xs.length ≤ (UInt32.ofNat lane).toNat := by omega
  rw [Contents.ofParts_of_several several] at dstValue
  change s.execute ((dst.type.compute .opCompositeInsert _).emitted m) = _ at run
  rw [LogicalType.emitted_compute] at run
  obtain ⟨u, step, -⟩ := bind_eq_ok.1 run
  cases (Machine.step_insert_beyond srcValue dstValue outside).symm.trans step

/-- Where a merge into a vector is not refused, selected lanes that the vector does not have make no
difference, unless the lowest of all is one of them and a scalar is sent to it. -/
theorem merge_ignores_missing_lanes_iff (m : Module) (s : Machine) (dst src : Value)
    (mask : LaneMask) (xs ys : List Contents) {action : Build Value}
    (vector : dst.type.width ≠ .one) (merged : dst.merge src mask = .ok action)
    (fit : (action m).2.IdsFit)
    (unset : ∀ id, m.bound ≤ id.word → s.values.get? id = none)
    (dstValue : s.values.get? dst.id = some (ofParts xs))
    (xsLength : xs.length = dst.type.width.count)
    (srcValue : s.values.get? src.id = some (ofParts ys))
    (ysLength : ys.length = src.type.width.count) :
    dst.MergesTo src (mask.below dst.type.width.count) m s
      (ofParts ((mask.below dst.type.width.count).mergeLanes xs ys)) ∧
    (dst.MergesTo src mask m s (ofParts ((mask.below dst.type.width.count).mergeLanes xs ys)) ↔
      (src.type.width = .one → ∀ lane ∈ mask.first?, lane < dst.type.width.count)) := by
  obtain ⟨merge, planned, rfl⟩ := merge_eq_ok.1 merged
  have fitHere : m.IdsFit := fit.of_le (Build.Monotone.issued_le (x := merge.emit dst src) m)
  have fresh : s.Fresh m := Machine.fresh_of_bound fitHere unset
  by_cases inside : src.type.width = .one → ∀ lane ∈ mask.first?, lane < dst.type.width.count
  · have accepts := Merge.accepts_of_plan vector inside planned
    obtain ⟨action, t, merged', run, value⟩ := mergesTo_of_accepts planned fit accepts fresh
      dstValue xsLength srcValue ysLength
    obtain rfl : merge.emit dst src = action := Except.ok.inj (merged.symm.trans merged')
    have lanes : (mask.below dst.type.width.count).mergeLanes xs ys = mask.mergeLanes xs ys := by
      rw [← xsLength]
      refine LaneMask.mergeLanes_below fun single => ?_
      rw [xsLength]
      exact inside (Width.eq_one_of_count (ysLength.symm.trans single))
    rw [lanes]
    exact ⟨⟨_, t, merge_eq_ok.2 ⟨merge, Merge.plan_below vector inside planned, rfl⟩, run, value⟩,
      fun _ => inside, fun _ => ⟨_, t, merged, run, value⟩⟩
  · -- The mask starts beyond the vector: nothing of it is left, so the vector is kept.
    obtain ⟨scalar, outside⟩ := Classical.not_imp.1 inside
    obtain ⟨lane, both⟩ := not_forall.1 outside
    obtain ⟨first, missing⟩ := Classical.not_imp.1 both
    have beyond : dst.type.width.count ≤ lane := Nat.le_of_not_lt missing
    have empty := LaneMask.first?_below_of_le first beyond
    rw [LaneMask.mergeLanes_of_empty empty]
    have kept : Merge.plan dst.type.width src.type.width (mask.below dst.type.width.count) =
        .ok .keep := by
      rw [scalar, Merge.plan_scalar vector, empty]
      rfl
    refine ⟨⟨_, s, merge_eq_ok.2 ⟨.keep, kept, rfl⟩, ?_, dstValue⟩, ?_⟩
    · have code : (Merge.keep.emit dst src m).2.code = m.code ++ [] := (List.append_nil _).symm
      rw [Build.emitted_eq code]
      rfl
    · refine ⟨fun merges => ?_, fun inside => absurd (inside scalar lane first) missing⟩
      exact absurd merges
        (not_mergesTo_of_beyond vector scalar first beyond dstValue xsLength srcValue _)

end Value

theorem number_merged_into_pair :
    Value.MergesTo ⟨⟨.float32, .two, 0⟩, ⟨3⟩⟩ ⟨.float, ⟨2⟩⟩ ⟨true, false, true, false⟩
      { Module.empty with issued := 4 } sampleMachine (ofParts [.scalar 6, .scalar 8]) ∧
    Value.MergesTo ⟨⟨.float32, .two, 0⟩, ⟨3⟩⟩ ⟨.float, ⟨2⟩⟩ ⟨true, false, false, false⟩
      { Module.empty with issued := 4 } sampleMachine (ofParts [.scalar 6, .scalar 8]) := by
  obtain ⟨without, same⟩ := Value.merge_ignores_missing_lanes_iff { Module.empty with issued := 4 }
    sampleMachine ⟨⟨.float32, .two, 0⟩, ⟨3⟩⟩ ⟨.float, ⟨2⟩⟩ ⟨true, false, true, false⟩
    [.scalar 7, .scalar 8] [.scalar 6] (by decide) rfl (by decide +kernel)
    (fun _ later => sampleMachine_unset later) rfl rfl rfl rfl
  exact ⟨same.2 (by decide), without⟩

/-- A number sent to the third lane of a pair gets nowhere, although no lane of the pair is
selected. -/
theorem number_sent_beyond_pair :
    Value.MergesTo ⟨⟨.float32, .two, 0⟩, ⟨3⟩⟩ ⟨.float, ⟨2⟩⟩
      (LaneMask.below ⟨false, false, true, false⟩ 2) { Module.empty with issued := 4 } sampleMachine
      (ofParts [.scalar 7, .scalar 8]) ∧
    ∃ action, Value.merge ⟨⟨.float32, .two, 0⟩, ⟨3⟩⟩ ⟨.float, ⟨2⟩⟩ ⟨false, false, true, false⟩ =
        .ok action ∧
      sampleMachine.execute (action.emitted { Module.empty with issued := 4 }) =
        .error (.indexOutOfBounds 2 2) := by
  exact ⟨⟨_, sampleMachine, rfl, rfl, rfl⟩, _, rfl, rfl⟩

end Shader
