import Shader.Emitter.Types

/-!
Temporary registers. A register is known by its index, and the registers are declared in order.
-/

namespace Shader

structure Registers where
  places : List Place := []
deriving DecidableEq, Repr

namespace Registers

def size (r : Registers) : Nat := r.places.length

def get? (r : Registers) (index : Nat) : Option Place := r.places[index]?

def toList (r : Registers) : List (Nat × Place) := r.places.zipIdx.map fun p => (p.2, p.1)

def missing (r : Registers) (n : Nat) : List Nat := List.range' r.size (n - r.size)

def grow {m : Type → Type} [Monad m] (r : Registers) (n : Nat) (declare : Nat → m Place) :
    m Registers := do
  let fresh ← (r.missing n).mapM declare
  return ⟨r.places ++ fresh⟩

def get (r : Registers) (index : Nat) : Except Misuse Place :=
  match r.get? index with
  | some place => .ok place
  | none => .error (.undeclaredRegister index r.size)

/-- Registers hold four floats each and are private to an invocation. -/
def placeType : PlaceType := ⟨.float4, .privateStorage⟩

def declareOne (type : ResultId) (index : Nat) : Build Place := do
  let id ← Build.declareVariable ⟨type, placeType.storage⟩
  Build.name id ("r" ++ index.repr)
  return ⟨placeType, id⟩

def reserve (r : Registers) (n : Nat) : Build Registers := do
  if n ≤ r.size then return r
  else
    let type ← placeType.declare
    r.grow n (declareOne type)

end Registers
end Shader
