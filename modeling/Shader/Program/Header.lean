import Shader.Program.Stage

/-!
Program headers: a version token and the length of the program in words, both little-endian.
-/

namespace Shader

structure Version where
  stage : Stage
  major : UInt32
  minor : UInt32
deriving DecidableEq, Repr

namespace Version

/-- The stage in the upper half, then four bits each for major and minor; the token has no room for
more of a version than that. -/
def token (v : Version) : UInt32 :=
  v.stage.code <<< 16 ||| (v.major &&& 0xf) <<< 4 ||| (v.minor &&& 0xf)

def ofToken (token : UInt32) : Except ProgramError Version := do
  let stage ← Stage.decode (token >>> 16)
  return ⟨stage, (token >>> 4) &&& 0xf, token &&& 0xf⟩

def text (v : Version) : String :=
  v.stage.tag ++ "_" ++ v.major.toNat.repr ++ "_" ++ v.minor.toNat.repr

end Version

structure ProgramHeader where
  version : Version
  length : UInt32
deriving DecidableEq, Repr

/-- The first four bytes as a little-endian word, and what follows them. -/
def takeWord? : List UInt8 → Option (UInt32 × List UInt8)
  | a :: b :: c :: d :: rest =>
    some (a.toUInt32 ||| b.toUInt32 <<< 8 ||| c.toUInt32 <<< 16 ||| d.toUInt32 <<< 24, rest)
  | _ => none

namespace ProgramHeader

def words? (bytes : List UInt8) : Option (UInt32 × UInt32) := do
  let (token, rest) ← takeWord? bytes
  let (length, _) ← takeWord? rest
  return (token, length)

def decode (bytes : List UInt8) : Except ProgramError ProgramHeader :=
  match words? bytes with
  | none => .error (.malformed (.truncated bytes.length))
  | some (token, length) => do
    let version ← Version.ofToken token
    if length < 2 then
      throw (.malformed (.lengthBelowHeader length))
    else if bytes.length < 4 * length.toNat then
      throw (.malformed (.lengthBeyondInput length bytes.length))
    else
      return ⟨version, length⟩

end ProgramHeader
end Shader
