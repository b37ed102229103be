import Shader.Proofs.Acceptance
import Shader.Proofs.Paths
import Shader.Proofs.Reaching

/-!
The machine beside the session. While an emitter adds to a module, the machine that the code leads
to holds the lanes that the program has given to the registers, to the position and to all answered
values.
-/

namespace Shader

namespace Contents

def ofLane (x : Binary32) : Contents := .scalar x.bits.toUInt64

def ofLanes : List Binary32 → Contents
  | [x] => ofLane x
  | xs => .composite (xs.map ofLane)

theorem ofLanes_eq_ofParts (xs : List Binary32) : ofLanes xs = ofParts (xs.map ofLane) := by
  match xs with
  | [] => rfl
  | [_] => rfl
  | _ :: _ :: _ => rfl

theorem ofLanes_of_several {xs : List Binary32} (several : 2 ≤ xs.length) :
    ofLanes xs = .composite (xs.map ofLane) := by
  rw [ofLanes_eq_ofParts]
  exact ofParts_of_several (by simpa using several)

theorem mapM_bits?_ofLane (xs : List Binary32) :
    (xs.map ofLane).mapM bits? = some (xs.map fun x => x.bits.toUInt64) := by
  induction xs with
  | nil => rfl
  | cons x xs ih => simp [List.mapM_cons, ih, ofLane, bits?]

theorem floatLanes?_ofLanes (xs : List Binary32) : (ofLanes xs).floatLanes? = some xs := by
  unfold ofLanes
  split
  · simp [floatLanes?, lanes?, ofLane]
  · change Option.map _ ((xs.map ofLane).mapM bits?) = _
    rw [mapM_bits?_ofLane]
    simp [Function.comp_def]

theorem write_ofLanes {xs : List Binary32} (several : 2 ≤ xs.length) (small : xs.length ≤ 4)
    {lane : Nat} (within : lane < xs.length) (x : Binary32) :
    (ofLanes xs).write [UInt32.ofNat lane] (ofLane x) = .ok (ofLanes (xs.set lane x)) := by
  rw [ofLanes_eq_ofParts, ofLanes_eq_ofParts, List.map_set]
  exact write_ofParts (by simpa using several) (by simpa using small) (by simpa using within) _

end Contents

open Contents (ofLane ofLanes)

theorem Machine.Retains.refl (t : Machine) : t.Retains t := ⟨fun _ _ h => h, fun _ _ h => h,
  fun _ _ _ h => h⟩

theorem Merge.emit_carries {m : Module} {body : List Instruction} {t : Machine} {dst src : Value}
    {plan : Merge} {xs ys zs : List Binary32} (reaches : m.Reaches body t)
    (dstValue : t.values.get? dst.id = some (ofLanes xs))
    (srcValue : t.values.get? src.id = some (ofLanes ys)) (yields : plan.Yields xs ys zs)
    (length : zs.length = xs.length) (small : xs.length ≤ 4) :
    (plan.emit dst src).Ensures m fun v m' => ∃ is t', m.Carries body is m' t' ∧ t.Retains t' ∧
      t'.values.get? v.id = some (ofLanes zs) := by
  have dstKnown := reaches.mem_scope_of_value dstValue
  have srcKnown := reaches.mem_scope_of_value srcValue
  cases plan with
  | keep =>
    obtain rfl : zs = xs := yields
    exact .pure ⟨[], t, reaches.carries, .refl t, dstValue⟩
  | replace =>
    obtain rfl : zs = ys := yields
    exact .pure ⟨[], t, reaches.carries, .refl t, srcValue⟩
  | insert lane =>
    obtain ⟨x, rfl, several, within, rfl⟩ := yields
    refine (insert_emits reaches.sound dstKnown srcKnown lane).imp ?_
    rintro v m' ⟨-, type, emits⟩
    have written := Contents.write_ofLanes several small within x
    obtain ⟨t', carries, retains, value, -⟩ := reaches.define emits rfl fun u _ retains =>
      Machine.step_compositeInsert (retains.values _ _ srcValue) (retains.values _ _ dstValue) written
    exact ⟨_, t', carries, retains, value⟩
  | shuffle selectors =>
    obtain ⟨several, more, lanes⟩ := yields
    refine (shuffle_emits reaches.sound dstKnown srcKnown selectors).imp ?_
    rintro v m' ⟨-, type, emits⟩
    have chosen : List.Forall₂ (fun k c => (xs.map ofLane ++ ys.map ofLane)[k.toNat]? = some c)
        selectors (zs.map ofLane) := by
      rw [List.forall₂_map_right_iff]
      refine lanes.imp fun k z there => ?_
      rw [← List.map_append, List.getElem?_map, there]
      rfl
    rw [Contents.ofLanes_of_several several] at dstValue
    rw [Contents.ofLanes_of_several more] at srcValue
    obtain ⟨t', carries, retains, value, -⟩ := reaches.define emits rfl fun u _ retains =>
      Machine.step_vectorShuffle (retains.values _ _ dstValue) (retains.values _ _ srcValue) chosen
    refine ⟨_, t', carries, retains, ?_⟩
    rw [value, Contents.ofLanes_of_several (by omega)]

def Machine.HoldsAll (t : Machine) (ps : List Place) (rows : List (List Binary32)) : Prop :=
  List.Forall₂ (fun p lanes => t.memory.get? p.id = some (ofLanes lanes)) ps rows

namespace Machine.HoldsAll
variable {t : Machine} {ps : List Place} {rows : List (List Binary32)}

theorem storing_elsewhere (holds : t.HoldsAll ps rows) {var : ResultId}
    (elsewhere : ∀ p ∈ ps, p.id ≠ var) (c : Contents) : (t.storing var c).HoldsAll ps rows := by
  refine ((List.forall₂_and_left ps rows).2 ⟨elsewhere, holds⟩).imp ?_
  rintro p lanes ⟨differ, known⟩
  rw [Machine.storing, Table.get?_insert_of_ne _ _ differ, known]

theorem storing (holds : t.HoldsAll ps rows) (distinct : (ps.map Place.id).Nodup) {i : Nat}
    {p : Place} (there : ps[i]? = some p) (lanes : List Binary32) :
    (t.storing p.id (ofLanes lanes)).HoldsAll ps (rows.set i lanes) := by
  induction holds generalizing i with
  | nil => cases there
  | @cons q row qs rows known rest ih =>
    rw [List.map_cons, List.nodup_cons] at distinct
    cases i with
    | zero =>
      cases there
      refine .cons (Table.get?_insert_self ..) (storing_elsewhere rest ?_ _)
      intro r member same
      exact distinct.1 (List.mem_map.2 ⟨r, member, same⟩)
    | succ i =>
      have differ : q.id ≠ p.id := by
        intro same
        exact distinct.1 (List.mem_map.2 ⟨p, List.mem_of_getElem? there, same.symm⟩)
      refine .cons ?_ (ih distinct.2 there)
      rw [Machine.storing, Table.get?_insert_of_ne _ _ differ, known]

end Machine.HoldsAll

/-- The machine holds what the program has computed so far. -/
structure Session.Follows (s : Session) (a : LaneMachine) (t : Machine) : Prop where
  temps : t.HoldsAll s.emitter.temps.places a.temps
  distinct : (s.emitter.output :: s.emitter.temps.places.map Place.id).Nodup
  output : ∃ others, t.memory.get? s.emitter.output = some (.composite (ofLanes a.position :: others))
  values : List.Forall₂ (fun v lanes => t.values.get? v.id = some (ofLanes lanes)) s.values a.values
  positions : List.Forall₂ (fun p target => target = .position →
    t.values.get? p.id = some (.address s.emitter.output [0]) ∧ t.memory.get? p.id = none)
    s.places a.places

namespace Session.Follows
variable {s : Session} {a : LaneMachine} {t t' : Machine}

theorem retains (follows : s.Follows a t) (retains : t.Retains t') : s.Follows a t' where
  temps := follows.temps.imp fun p lanes known => retains.memory p.id _ known
  distinct := follows.distinct
  output := by
    obtain ⟨others, known⟩ := follows.output
    exact ⟨others, retains.memory _ _ known⟩
  values := follows.values.imp fun v lanes known => retains.values v.id _ known
  positions := by
    refine follows.positions.imp fun p target place isPosition => ?_
    obtain ⟨known, apart⟩ := place isPosition
    exact ⟨retains.values p.id _ known, retains.apart p.id _ known apart⟩

theorem answer (follows : s.Follows a t) {v : Value} {lanes : List Binary32}
    (known : t.values.get? v.id = some (ofLanes lanes)) :
    (s.answered (.value v) s.emitter.toEmitter).Follows (a.answer lanes) t :=
  { follows with values := forall₂_concat follows.values known }

theorem point (follows : s.Follows a t) {p : Place} {target : Target}
    (known : target = .position →
      t.values.get? p.id = some (.address s.emitter.output [0]) ∧ t.memory.get? p.id = none) :
    (s.answered (.place p) s.emitter.toEmitter).Follows { a with places := a.places ++ [target] } t :=
  { follows with positions := forall₂_concat follows.positions known }

theorem value (follows : s.Follows a t) {k : Nat} {v : Value} {lanes : List Binary32}
    (there : s.values[k]? = some v) (same : a.values[k]? = some lanes) :
    t.values.get? v.id = some (ofLanes lanes) := by
  obtain ⟨w, found, known⟩ := forall₂_getElem?_right follows.values same
  rw [there] at found
  cases found
  exact known

/-- A variable that is there is not taken for the address of the position. -/
theorem positions_storing (follows : s.Follows a t) {var : ResultId} {old : Contents}
    (known : t.memory.get? var = some old) (c : Contents) :
    List.Forall₂ (fun p target => target = .position →
      (t.storing var c).values.get? p.id = some (.address s.emitter.output [0]) ∧
      (t.storing var c).memory.get? p.id = none) s.places a.places := by
  refine follows.positions.imp fun p target place isPosition => ?_
  obtain ⟨value, apart⟩ := place isPosition
  have differ : p.id ≠ var := by
    rintro rfl
    rw [apart] at known
    cases known
  refine ⟨value, ?_⟩
  rw [Machine.storing, Table.get?_insert_of_ne _ _ differ, apart]

theorem write_register (follows : s.Follows a t) {i : Nat} {p : Place} {old : Contents}
    (there : s.emitter.temps.places[i]? = some p) (known : t.memory.get? p.id = some old)
    (lanes : List Binary32) :
    s.Follows (a.write lanes (.temp i)) (t.storing p.id (ofLanes lanes)) where
  temps := follows.temps.storing (List.nodup_cons.1 follows.distinct).2 there lanes
  distinct := follows.distinct
  output := by
    obtain ⟨others, kept⟩ := follows.output
    have differ : s.emitter.output ≠ p.id := by
      intro same
      refine (List.nodup_cons.1 follows.distinct).1 ?_
      exact List.mem_map.2 ⟨p, List.mem_of_getElem? there, same.symm⟩
    refine ⟨others, ?_⟩
    rw [Machine.storing, Table.get?_insert_of_ne _ _ differ, kept]
    rfl
  values := follows.values
  positions := follows.positions_storing known _

theorem write_position (follows : s.Follows a t) {old : Contents}
    (known : t.memory.get? s.emitter.output = some old) (lanes : List Binary32)
    (others : List Contents) :
    s.Follows (a.write lanes .position)
      (t.storing s.emitter.output (.composite (ofLanes lanes :: others))) where
  temps := by
    refine follows.temps.storing_elsewhere ?_ _
    intro p member same
    exact (List.nodup_cons.1 follows.distinct).1 (List.mem_map.2 ⟨p, member, same⟩)
  distinct := follows.distinct
  output := ⟨others, Table.get?_insert_self ..⟩
  values := follows.values
  positions := follows.positions_storing known _

/-- Through a place the machine reads what its target holds, and a write there changes nothing
else. -/
theorem access (follows : s.Follows a t) (fits : s.Fits a) {k : Nat} {p : Place} {target : Target}
    (there : s.places[k]? = some p) (same : a.places[k]? = some target) :
    ∃ var path c, t.cell p.id = .ok (var, path) ∧ t.memory.get? var = some c ∧
      c.read path = .ok (ofLanes (a.read target)) ∧
      ∀ lanes, ∃ changed, c.write path (ofLanes lanes) = .ok changed ∧
        s.Follows (a.write lanes target) (t.storing var changed) := by
  obtain ⟨q, found, four, register⟩ := fits.place same
  rw [there] at found
  cases found
  cases target with
  | temp i =>
    have isRegister := register i rfl
    have within := fits.temp same
    obtain ⟨x, found, known⟩ := forall₂_getElem?_right follows.temps (List.getElem?_eq_getElem within)
    rw [isRegister] at found
    cases found
    have read : a.read (.temp i) = a.temps[i] := by
      change a.temps.getD i zeroLanes = _
      rw [List.getD_eq_getElem?_getD, List.getElem?_eq_getElem within]
      rfl
    refine ⟨p.id, [], ofLanes a.temps[i], ?_, known, ?_, ?_⟩
    · simp [Machine.cell, Table.contains, known]
    · rw [read]
      rfl
    · exact fun lanes => ⟨ofLanes lanes, rfl, follows.write_register isRegister known lanes⟩
  | position =>
    obtain ⟨q, found, access⟩ := forall₂_getElem?_right follows.positions same
    rw [there] at found
    cases found
    obtain ⟨isAddress, apart⟩ := access rfl
    obtain ⟨others, known⟩ := follows.output
    refine ⟨s.emitter.output, [0], _, ?_, known, rfl, ?_⟩
    · simp [Machine.cell, Table.contains, apart, isAddress]
    · exact fun lanes => ⟨_, rfl, follows.write_position known lanes others⟩

end Session.Follows
end Shader
