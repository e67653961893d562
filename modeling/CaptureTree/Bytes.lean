/-!
# Byte strings

Matching works on bytes, not on characters of an encoding.  A byte string is a
list of bytes; where bytes appear inside a message, each is shown as the
character of the same number.
-/

namespace CaptureTree

/-- A byte string. -/
abbrev Bytes := List UInt8

namespace Bytes

/-- Every byte once, ascending. -/
def all : Bytes :=
  (List.range 256).map UInt8.ofNat

/-- The byte string as text, byte `n` being the character numbered `n`. -/
def text (b : Bytes) : String :=
  String.ofList (b.map fun c => Char.ofNat c.toNat)

end Bytes

end CaptureTree
