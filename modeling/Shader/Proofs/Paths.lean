import Shader.Proofs.Execution

/-!
Paths into nested contents: a cell that can be read can be replaced, and replacing it changes
nothing that is not on the path to it or below it.
-/

namespace Shader
namespace Contents
variable {c c' d x : Contents} {index other : UInt32} {path p q : List UInt32}

theorem part_setPart_self (found : c.part index = .ok d) (x : Contents) :
    (c.setPart index x).part index = .ok x := by
  obtain ⟨parts, rfl, here⟩ := part_eq_ok.1 found
  obtain ⟨within, -⟩ := List.getElem?_eq_some_iff.1 here
  exact part_eq_ok.2 ⟨parts.set index.toNat x, rfl, by simp [within]⟩

theorem part_setPart_of_ne (differ : index ≠ other) (x : Contents) :
    (c.setPart index x).part other = c.part other := by
  cases c with
  | composite parts =>
    have apart : index.toNat ≠ other.toNat := fun same => differ (UInt32.toNat_inj.1 same)
    simp [setPart, part, apart]
  | scalar bits => rfl
  | address var path => rfl

/-- Both walks fail at the same composite, for the same reason. -/
theorem write_eq_error {e : ExecError} : c.write p x = .error e ↔ c.read p = .error e := by
  induction p generalizing c with
  | nil =>
    constructor
    · intro fails
      cases fails
    · intro fails
      cases fails
  | cons index p ih =>
    rw [write_cons, read, bind_eq_error, bind_eq_error]
    refine or_congr_right (exists_congr fun old => and_congr_right fun _ => ?_)
    rw [bind_eq_error, ih]
    constructor
    · rintro (early | ⟨new, -, late⟩)
      · exact early
      · cases late
    · exact .inl

theorem exists_write_of_read (found : c.read path = .ok d) (x : Contents) :
    ∃ c', c.write path x = .ok c' := by
  cases written : c.write path x with
  | ok c' => exact ⟨c', rfl⟩
  | error e =>
    rw [write_eq_error.1 written] at found
    cases found

theorem read_write_self (written : c.write path x = .ok c') : c'.read path = .ok x := by
  induction path generalizing c c' with
  | nil =>
    cases written
    rfl
  | cons index path ih =>
    obtain ⟨old, new, here, below, rfl⟩ := write_cons_eq_ok.1 written
    exact bind_eq_ok.2 ⟨new, part_setPart_self here new, ih below⟩

/-- Two paths that part ways lead to cells that do not affect each other. -/
theorem read_write_apart (written : c.write p x = .ok c') (notAbove : ¬p <+: q)
    (notBelow : ¬q <+: p) : c'.read q = c.read q := by
  induction p generalizing c c' q with
  | nil => exact absurd List.nil_prefix notAbove
  | cons index p ih =>
    obtain ⟨old, new, here, below, rfl⟩ := write_cons_eq_ok.1 written
    cases q with
    | nil => exact absurd List.nil_prefix notBelow
    | cons other q =>
      rw [read, read]
      by_cases same : index = other
      · subst same
        have rest : new.read q = old.read q :=
          ih below (fun above => notAbove (List.cons_prefix_cons.2 ⟨rfl, above⟩))
            fun above => notBelow (List.cons_prefix_cons.2 ⟨rfl, above⟩)
        rw [part_setPart_self here, here]
        exact rest
      · rw [part_setPart_of_ne same]

theorem read_write_above (written : c.write (p ++ index :: q) x = .ok c') : ∃ parts part,
    c.read p = .ok (.composite parts) ∧ c'.read p = .ok (.composite (parts.set index.toNat part)) := by
  induction p generalizing c c' with
  | nil =>
    obtain ⟨old, new, here, -, rfl⟩ := write_cons_eq_ok.1 written
    obtain ⟨parts, rfl, -⟩ := part_eq_ok.1 here
    exact ⟨parts, new, rfl, rfl⟩
  | cons first p ih =>
    obtain ⟨old, new, here, below, rfl⟩ := write_cons_eq_ok.1 written
    obtain ⟨parts, part, before, after⟩ := ih below
    exact ⟨parts, part, bind_eq_ok.2 ⟨old, here, before⟩,
      bind_eq_ok.2 ⟨new, part_setPart_self here new, after⟩⟩

/-! Reading and replacing cells, one after the other. -/

theorem read_append (c : Contents) (p q : List UInt32) :
    c.read (p ++ q) = c.read p >>= fun d => d.read q := by
  induction p generalizing c with
  | nil => rfl
  | cons index p ih => simp only [List.cons_append, read, ih, bind_assoc]

theorem exists_write_iff (c x : Contents) (p : List UInt32) :
    (∃ c', c.write p x = .ok c') ↔ ∃ d, c.read p = .ok d := by
  constructor
  · rintro ⟨c', written⟩
    cases found : c.read p with
    | ok d => exact ⟨d, rfl⟩
    | error e =>
      rw [write_eq_error.2 found] at written
      cases written
  · rintro ⟨d, found⟩
    exact exists_write_of_read found x

theorem read_write_below (written : c.write p x = .ok c') (q : List UInt32) :
    c'.read (p ++ q) = x.read q := by
  rw [read_append, read_write_self written]
  rfl

theorem setPart_setPart (c x y : Contents) (index : UInt32) :
    (c.setPart index x).setPart index y = c.setPart index y := by
  cases c with
  | composite parts => simp [setPart]
  | scalar bits => rfl
  | address var path => rfl

theorem write_read_self (found : c.read p = .ok d) : c.write p d = .ok c := by
  induction p generalizing c with
  | nil =>
    cases found
    rfl
  | cons index p ih =>
    obtain ⟨old, here, below⟩ := bind_eq_ok.1 found
    exact write_cons_eq_ok.2 ⟨old, old, here, ih below, (setPart_part here).symm⟩

theorem write_write (written : c.write p x = .ok c') (y : Contents) :
    c'.write p y = c.write p y := by
  induction p generalizing c c' with
  | nil => rfl
  | cons index p ih =>
    obtain ⟨old, new, here, below, rfl⟩ := write_cons_eq_ok.1 written
    have again : new.write p y = old.write p y := ih below
    rw [write_cons, write_cons, here, part_setPart_self here]
    change (do return (c.setPart index new).setPart index (← new.write p y)) = _
    rw [again]
    simp only [setPart_setPart]
    rfl

def ofParts : List Contents → Contents
  | [c] => c
  | cs => .composite cs

theorem ofParts_of_several {cs : List Contents} (several : 2 ≤ cs.length) :
    ofParts cs = .composite cs := by
  match cs with
  | [] => rfl
  | [_] => simp at several
  | _ :: _ :: _ => rfl

theorem write_ofParts {cs : List Contents} (several : 2 ≤ cs.length) (small : cs.length ≤ 4)
    {lane : Nat} (within : lane < cs.length) (x : Contents) :
    (ofParts cs).write [UInt32.ofNat lane] x = .ok (ofParts (cs.set lane x)) := by
  have position : (UInt32.ofNat lane).toNat = lane := UInt32.toNat_ofNat_of_lt' (by
    simp only [UInt32.size]
    omega)
  rw [ofParts_of_several several, ofParts_of_several (by simpa using several)]
  have here : (composite cs).part (UInt32.ofNat lane) = .ok cs[lane] :=
    part_eq_ok.2 ⟨cs, rfl, by simp [position, within]⟩
  exact write_cons_eq_ok.2 ⟨cs[lane], x, here, rfl, by simp [setPart, position]⟩

end Contents
end Shader
