import CaptureTree.Bytes

/-!
# Spans

A span is a half-open range of input positions.  Spans come from outside as well
as from matching, so nothing forces them to lie in order or inside the input.
Positions are 64-bit words to the caller; accordingly the size of a reversed
span is counted backwards round the word.
-/

namespace CaptureTree

/-- The positions from `start` on, before `stop`. -/
structure Span where
  start : Nat
  stop : Nat
  deriving DecidableEq, Repr

namespace Span

/-- The number of positions; a reversed span is counted round the 64-bit
word. -/
def size (s : Span) : Nat :=
  if s.start ≤ s.stop then s.stop - s.start else UInt64.size - (s.start - s.stop)

/-- Is the span in order and inside an input of `size` bytes? -/
def fits (s : Span) (size : Nat) : Bool :=
  s.start ≤ s.stop && s.stop ≤ size

theorem fits_iff {s : Span} {size : Nat} :
    s.fits size = true ↔ s.start ≤ s.stop ∧ s.stop ≤ size := by
  rw [fits, Bool.and_eq_true, decide_eq_true_eq, decide_eq_true_eq]

/-- The bytes of the input that the span covers, as far as the input goes.  A
span that starts behind the end of the input has none to show. -/
def bytes? (s : Span) (input : Bytes) : Option Bytes :=
  if s.start ≤ input.length then some ((input.drop s.start).take s.size) else none

/-- Printed form `3..5`. -/
def text (s : Span) : String :=
  toString s.start ++ ".." ++ toString s.stop

end Span

end CaptureTree
