import Shader.Proofs.Booting

/-!
Contents of a type. A path that the declarations allow leads to a cell of the type that they say is
there, and writing a cell of that type keeps the type of the whole.
-/

namespace Shader

section Pairs
variable {α β : Type} {R : α → β → Prop}

theorem forall₂_set {as : List α} {bs : List β} (all : List.Forall₂ R as bs) {n : Nat} {a : α} {b : β}
    (there : as[n]? = some a) (related : R a b) : List.Forall₂ R as (bs.set n b) := by
  induction all generalizing n with
  | nil => cases there
  | cons first others ih =>
    cases n with
    | zero =>
      cases there
      exact .cons related others
    | succ n => exact .cons first (ih there)

theorem forall₂_replicate {a : α} {b : β} (related : R a b) (n : Nat) :
    List.Forall₂ R (List.replicate n a) (List.replicate n b) := by
  induction n with
  | zero => exact .nil
  | succ n ih => exact .cons related ih

end Pairs

namespace Module

def partTypes? (m : Module) (type : ResultId) : Option (List ResultId) :=
  match m.typeDecl? type with
  | some (.vector component count) => some (List.replicate count.toNat component)
  | some (.array element length) =>
    ((m.constDecl? length).bind ConstDecl.bits?).map fun size => List.replicate size.toNat element
  | some (.struct members) => some members
  | _ => none

def isNumber (m : Module) (type : ResultId) : Bool :=
  match m.typeDecl? type with
  | some (.int _ _) => true
  | some (.float _) => true
  | _ => false

def pointee? (m : Module) (type : ResultId) : Option ResultId :=
  match m.typeDecl? type with
  | some (.pointer pointee _) => some pointee
  | _ => none

def typeAt? (m : Module) : ResultId → List UInt32 → Option ResultId
  | type, [] => some type
  | type, index :: path => do
    let part ← (← m.partTypes? type)[index.toNat]?
    m.typeAt? part path

/-- Contents with the shape of the type, down to the numbers in it. -/
inductive Holds (m : Module) : ResultId → Contents → Prop where
  | number {type : ResultId} (number : m.isNumber type) (bits : UInt64) : Holds m type (.scalar bits)
  | composite {type : ResultId} {types : List ResultId} {parts : List Contents}
      (layout : m.partTypes? type = some types) (count : types.length = parts.length)
      (each : ∀ pair ∈ types.zip parts, Holds m pair.1 pair.2) : Holds m type (.composite parts)

variable {m : Module} {type target : ResultId} {c : Contents}

theorem Holds.of_parts {types : List ResultId} {parts : List Contents}
    (layout : m.partTypes? type = some types) (all : List.Forall₂ m.Holds types parts) :
    m.Holds type (.composite parts) :=
  .composite layout all.length_eq fun _ member => List.forall₂_zip all member

theorem Holds.parts {types : List ResultId} (holds : m.Holds type c)
    (layout : m.partTypes? type = some types) :
    ∃ parts, c = .composite parts ∧ List.Forall₂ m.Holds types parts := by
  cases holds with
  | number number bits =>
    unfold isNumber at number
    unfold partTypes? at layout
    split at number <;> simp_all
  | @composite _ known parts there count each =>
    rw [layout] at there
    cases there
    exact ⟨parts, rfl, List.forall₂_iff_zip.2 ⟨count, fun member => each _ member⟩⟩

/-- Pointers are not among the contents of variables. -/
theorem Holds.pointee?_eq_none (holds : m.Holds type c) : m.pointee? type = none := by
  unfold pointee?
  cases holds with
  | number number bits =>
    unfold isNumber at number
    split at number <;> simp_all
  | composite layout count each =>
    unfold partTypes? at layout
    split at layout <;> simp_all

theorem typeAt?_append (m : Module) (type : ResultId) (path more : List UInt32) :
    m.typeAt? type (path ++ more) = (m.typeAt? type path).bind fun t => m.typeAt? t more := by
  induction path generalizing type with
  | nil => rfl
  | cons index path ih =>
    simp only [List.cons_append, typeAt?, Option.bind_eq_bind, Option.bind_assoc, ih]

theorem typeAt?_cons {index : UInt32} {path : List UInt32}
    (reaches : m.typeAt? type (index :: path) = some target) :
    ∃ types part, m.partTypes? type = some types ∧ types[index.toNat]? = some part ∧
      m.typeAt? part path = some target := by
  simp only [typeAt?, Option.bind_eq_bind, Option.bind_eq_some_iff] at reaches
  obtain ⟨types, layout, part, there, rest⟩ := reaches
  exact ⟨types, part, layout, there, rest⟩

theorem Holds.read {path : List UInt32} (holds : m.Holds type c)
    (reaches : m.typeAt? type path = some target) :
    ∃ cell, c.read path = .ok cell ∧ m.Holds target cell := by
  induction path generalizing type c with
  | nil =>
    cases reaches
    exact ⟨c, rfl, holds⟩
  | cons index path ih =>
    obtain ⟨types, part, layout, there, rest⟩ := typeAt?_cons reaches
    obtain ⟨parts, rfl, all⟩ := holds.parts layout
    obtain ⟨x, found, inner⟩ := forall₂_getElem? all there
    obtain ⟨cell, read, typed⟩ := ih inner rest
    refine ⟨cell, bind_eq_ok.2 ⟨x, ?_, read⟩, typed⟩
    simp [Contents.part, found]

theorem Holds.write {path : List UInt32} {x : Contents} (holds : m.Holds type c)
    (reaches : m.typeAt? type path = some target) (new : m.Holds target x) :
    ∃ changed, c.write path x = .ok changed ∧ m.Holds type changed := by
  induction path generalizing type c with
  | nil =>
    cases reaches
    exact ⟨x, rfl, new⟩
  | cons index path ih =>
    obtain ⟨types, part, layout, there, rest⟩ := typeAt?_cons reaches
    obtain ⟨parts, rfl, all⟩ := holds.parts layout
    obtain ⟨old, found, inner⟩ := forall₂_getElem? all there
    obtain ⟨changed, written, typed⟩ := ih inner rest
    refine ⟨.composite (parts.set index.toNat changed), ?_,
      .of_parts layout (forall₂_set all there typed)⟩
    exact Contents.write_cons_eq_ok.2
      ⟨old, changed, Contents.part_eq_ok.2 ⟨parts, rfl, found⟩, written, rfl⟩

theorem zeroWithin_holds {depth : Nat} (zero : m.zeroWithin depth type = .ok c) : m.Holds type c := by
  induction depth generalizing type c with
  | zero => cases zero
  | succ depth ih =>
    unfold zeroWithin at zero
    cases known : m.typeDecl? type with
    | none => simp [known] at zero
    | some d =>
      rw [known] at zero
      cases d with
      | int width signed =>
        cases zero
        exact .number (by simp [isNumber, known]) 0
      | float width =>
        cases zero
        exact .number (by simp [isNumber, known]) 0
      | vector component count =>
        obtain ⟨lane, found, same⟩ := bind_eq_ok.1 zero
        cases same
        exact .of_parts (by simp [partTypes?, known]) (forall₂_replicate (ih found) _)
      | array element length =>
        cases size : (m.constDecl? length).bind ConstDecl.bits? with
        | none => simp [size] at zero
        | some bits =>
          simp only [size] at zero
          obtain ⟨each, found, same⟩ := bind_eq_ok.1 zero
          cases same
          exact .of_parts (by simp [partTypes?, known, size]) (forall₂_replicate (ih found) _)
      | struct members =>
        obtain ⟨parts, found, same⟩ := bind_eq_ok.1 zero
        cases same
        exact .of_parts (by simp [partTypes?, known]) ((mapM_eq_ok.1 found).imp fun _ _ one => ih one)
      | _ => cases zero

end Module
end Shader
