import Shader.Emitter.Directive

/-!
Programs for an emitter. A command refers to values and places by the order in which the emitter
answered them, so a program is the same whatever ids it is given, and uses nothing that its own
emitter did not answer.
-/

namespace Shader

inductive Command where
  | scalarType (kind : ScalarKind)
  | valueType (type : LogicalType)
  | placeType (type : PlaceType)
  | float (x : Binary32)
  | floats (xs : List Binary32)
  | reserve (count : Nat)
  | register (index : Nat)
  | merge (dst src : Nat) (mask : LaneMask)
  | load (place : Nat)
  | store (place value : Nat) (mask : LaneMask)
  | vertexBlock
  | position
deriving DecidableEq, Repr

inductive Refusal where
  | stage (error : ProgramError)
  | misuse (error : Misuse)
  | dangling
deriving DecidableEq, Repr

/-- An emitter with the values and places that it has answered. -/
structure Session where
  emitter : VertexEmitter
  values : List Value := []
  places : List Place := []
deriving DecidableEq, Repr

namespace Session

def directive? (s : Session) : Command → Option Directive
  | .scalarType kind => some (.scalarType kind)
  | .valueType type => some (.valueType type)
  | .placeType type => some (.placeType type)
  | .float x => some (.float x)
  | .floats xs => some (.floats xs)
  | .reserve count => some (.reserve count)
  | .register index => some (.register index)
  | .merge dst src mask => do return .merge (← s.values[dst]?) (← s.values[src]?) mask
  | .load place => do return .load (← s.places[place]?)
  | .store place value mask => do return .store (← s.places[place]?) (← s.values[value]?) mask
  | .vertexBlock => some .vertexBlock
  | .position => some (.position s.emitter.output)

def answered (s : Session) (reply : Reply) (emitter : Emitter) : Session where
  emitter := { s.emitter with toEmitter := emitter }
  values := match reply with
    | .value v => s.values ++ [v]
    | _ => s.values
  places := match reply with
    | .place p => s.places ++ [p]
    | _ => s.places

def perform (s : Session) (c : Command) : Except Refusal (Build Session) :=
  match s.directive? c with
  | none => .error .dangling
  | some d =>
    match s.emitter.perform d with
    | .error misuse => .error (.misuse misuse)
    | .ok action => .ok do
      let (reply, emitter) ← action
      return s.answered reply emitter

def performAll : Session → Module → List Command → Except Refusal (Session × Module)
  | s, m, [] => .ok (s, m)
  | s, m, c :: cs => do
    let action ← s.perform c
    performAll (action m).1 (action m).2 cs

end Session

structure Lifetime where
  stage : Stage
  commands : List Command
deriving DecidableEq, Repr

def Lifetime.emit (l : Lifetime) (m : Module) : Except Refusal (Session × Module) :=
  match VertexEmitter.forStage l.stage with
  | .error unsupported => .error (.stage unsupported)
  | .ok start => do
    let (session, m') ← Session.performAll ⟨(start m).1, [], []⟩ (start m).2 l.commands
    return (session, (session.emitter.finish m').2)

def emitAll : List Lifetime → Module → Except Refusal (List Session × Module)
  | [], m => .ok ([], m)
  | l :: ls, m => do
    let (session, m₁) ← l.emit m
    let (sessions, m₂) ← emitAll ls m₁
    return (session :: sessions, m₂)

end Shader
