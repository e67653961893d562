import CaptureTree.Pattern.Error

/-!
# Byte classes

A class is written as text such as `0-9a-f_`: read from the left, a byte
followed by a dash and another byte is a range, and any other byte stands for
itself.  A dash with nothing behind it, or right after a range, is therefore an
ordinary byte.

`expand` goes through the text once and marks in a table which bytes it has
seen.  It stops at the first range that runs backwards, and otherwise lists the
marked bytes in ascending order.
-/

namespace CaptureTree

/-- For each byte whether it has been seen. -/
abbrev SeenBytes := Vector Bool 256

namespace SeenBytes

/-- No byte has been seen. -/
def none : SeenBytes := Vector.replicate 256 false

/-- Marks a byte. -/
def mark (seen : SeenBytes) (c : Nat) : SeenBytes := seen.setIfInBounds c true

/-- Marks the bytes from `low` to `high`. -/
def markRange (seen : SeenBytes) (low high : UInt8) : SeenBytes :=
  (List.range' low.toNat (high.toNat + 1 - low.toNat)).foldl mark seen

/-- Has the byte been seen? -/
def has (seen : SeenBytes) (c : UInt8) : Bool := seen.get ⟨c.toNat, c.toNat_lt⟩

end SeenBytes

namespace ByteClass

/-- Marks the bytes that a class text stands for, unless one of its ranges runs
backwards. -/
def scan (seen : SeenBytes) : Bytes → Except PatternError SeenBytes
  | [] => .ok seen
  | low :: 0x2d :: high :: rest =>
    if high < low then .error (.reversedRange low high)
    else scan (seen.markRange low high) rest
  | byte :: rest => scan (seen.mark byte.toNat) rest

/-- The bytes that a class text stands for, ascending, unless one of its ranges
runs backwards. -/
def expand (chars : Bytes) : Except PatternError Bytes := do
  let seen ← scan .none chars
  return Bytes.all.filter seen.has

end ByteClass

end CaptureTree
