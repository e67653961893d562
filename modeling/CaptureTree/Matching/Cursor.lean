import CaptureTree.Pattern.Basic
import CaptureTree.Span

/-!
# Cursors

A cursor is a place in the input: how many bytes lie before it, and what lies
after it.  The number of bytes left is kept beside them, since it is what
decreases during a search.
-/

namespace CaptureTree

/-- A place in the input. -/
structure Cursor where
  /-- The number of bytes before it. -/
  pos : Nat
  /-- The number of bytes after it. -/
  left : Nat
  /-- The bytes after it. -/
  rest : Bytes
  deriving DecidableEq, Repr

namespace Cursor

/-- The start of an input. -/
def ofInput (input : Bytes) : Cursor :=
  { pos := 0, left := input.length, rest := input }

/-- The place `n` bytes further on. -/
def advance (c : Cursor) (n : Nat) : Cursor :=
  { pos := c.pos + n, left := c.left - n, rest := c.rest.drop n }

@[simp] theorem left_advance (c : Cursor) (n : Nat) : (c.advance n).left = c.left - n := rfl

/-- The place behind what a literal matches here, if it does. -/
def match? (c : Cursor) (l : Literal) : Option Cursor :=
  if l.isClass then
    match c.rest with
    | b :: _ => if l.accepts b then some (c.advance 1) else none
    | [] => none
  else if l.text.isPrefixOf c.rest then some (c.advance l.text.length)
  else none

/-- Matching a literal never moves back. -/
theorem left_le_of_match? {c d : Cursor} {l : Literal} (h : c.match? l = some d) :
    d.left ≤ c.left := by
  unfold match? at h
  split at h
  · split at h
    · split at h
      · cases h; simp
      · cases h
    · cases h
  · split at h
    · cases h; simp
    · cases h

end Cursor

end CaptureTree
