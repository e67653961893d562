import CaptureTree.Bytes
import CaptureTree.Message

/-!
# What can be wrong with a pattern

Each way in which a pattern is refused is a constructor here; the wording is in
`PatternError.message` alone.
-/

namespace CaptureTree

/-- The kinds of pattern nodes. -/
inductive NodeKind where
  | literal
  | capture
  | group
  | concat
  | alternation
  | quantifier
  deriving DecidableEq, Repr

/-- The name of a kind in messages. -/
def NodeKind.name : NodeKind → String
  | .literal => "Literal"
  | .capture => "Capture"
  | .group => "Group"
  | .concat => "Concat"
  | .alternation => "Alternation"
  | .quantifier => "Quantifier"

/-- A reason to refuse a pattern. -/
inductive PatternError where
  /-- A class range whose last byte lies below its first. -/
  | reversedRange (low high : UInt8)
  /-- A literal that has children. -/
  | literalWithChildren
  /-- A class that accepts no byte. -/
  | emptyClass
  /-- A capture name that is no identifier. -/
  | invalidName (name : String)
  /-- A capture name that an earlier capture already carries. -/
  | duplicateName (name : String)
  /-- A node of a kind that has one child, with another number of them. -/
  | childCount (kind : NodeKind) (count : Nat)
  /-- A quantifier whose upper bound lies below its lower bound. -/
  | reversedBounds (min max : Nat)
  /-- An alternation without branches. -/
  | noBranches
  deriving DecidableEq, Repr

namespace PatternError

/-- What is wrong, in words. -/
def reason : PatternError → String
  | reversedRange low high =>
    "class range '" ++ Bytes.text [low, 0x2d, high] ++ "' is reversed"
  | literalWithChildren => "literal with children"
  | emptyClass => "empty character class"
  | invalidName name => "invalid capture name '" ++ name ++ "'"
  | duplicateName name => "duplicate capture name '" ++ name ++ "'"
  | childCount kind count =>
    kind.name ++ " needs exactly one child, got " ++ toString count
  | reversedBounds min max =>
    "quantifier bound \x7b" ++ toString min ++ "," ++ toString max ++ "\x7d has max < min"
  | noBranches => "alternation without branches"

/-- The full message. -/
def message (e : PatternError) : String :=
  terminated ("pattern error: " ++ e.reason)

end PatternError

end CaptureTree
