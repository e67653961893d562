import CaptureTree.Trace.Basic

/-!
# Changing a trace step by step

An engine that backtracks writes records and takes them back.  A `Change` adds
one record to a frame; `Trace.retract` drops the most recent record of a kind
for a node.  Frames are addressed from the root by the iterations to enter.
-/

namespace CaptureTree

/-- One addition to a frame. -/
inductive Change where
  | record (capture : NodeId) (span : Span)
  | choose (alternation : NodeId) (branch : Nat)
  | iterate (quantifier : NodeId)
  deriving DecidableEq, Repr

/-- The record that a change adds; a new iteration starts empty. -/
def Change.entry : Change → Record
  | record n s => .span n s
  | choose n i => .choice n i
  | iterate n => .iteration n []

/-- Where a frame is, from the root: the quantifier and the number of the
iteration to enter, again and again. -/
abbrev FrameAddress := List (NodeId × Nat)

/-- Why a trace can not be changed as asked. -/
inductive ChangeError where
  /-- The address leads to no frame. -/
  | noFrame
  /-- The frame holds no record of that kind for that node. -/
  | nothingToRetract
  deriving DecidableEq, Repr

namespace Trace

/-- Adds a record at the end of this frame. -/
def apply (c : Change) (t : Trace) : Trace :=
  t ++ [c.entry]

/-- Drops the last record of the kind for the node, if there is one. -/
def retract (k : RecordKind) (n : NodeId) : Trace → Option Trace
  | [] => none
  | r :: t =>
    match retract k n t with
    | some t' => some (r :: t')
    | none => if r.kind = k ∧ r.node = n then some t else none

/-- The frame at an address. -/
def frame? (t : Trace) : FrameAddress → Option Trace
  | [] => some t
  | (q, i) :: path => (t.iterations q)[i]?.bind fun f => frame? f path

/-- Replaces the frame of iteration `i` of a quantifier by what `f` makes of
it. -/
def mapIteration (q : NodeId) (f : Trace → Except ChangeError Trace) :
    Nat → Trace → Except ChangeError Trace
  | _, [] => .error .noFrame
  | i, .iteration n frame :: t =>
    if n = q then
      match i with
      | 0 => do return .iteration n (← f frame) :: t
      | i + 1 => do return .iteration n frame :: (← mapIteration q f i t)
    else do return .iteration n frame :: (← mapIteration q f i t)
  | i, r :: t => do return r :: (← mapIteration q f i t)

/-- Replaces the frame at an address by what `f` makes of it. -/
def mapFrame (f : Trace → Except ChangeError Trace) :
    FrameAddress → Trace → Except ChangeError Trace
  | [], t => f t
  | (q, i) :: path, t => mapIteration q (mapFrame f path) i t

/-- Adds a record at the end of the frame at an address. -/
def applyAt (path : FrameAddress) (c : Change) : Trace → Except ChangeError Trace :=
  mapFrame (fun t => .ok (t.apply c)) path

/-- Drops the last record of the kind for the node from the frame at an
address. -/
def retractAt (path : FrameAddress) (k : RecordKind) (n : NodeId) :
    Trace → Except ChangeError Trace :=
  mapFrame (fun t => (t.retract k n).elim (.error .nothingToRetract) .ok) path

/-- Makes changes one after the other, each in the frame at its address. -/
def applyAll (changes : List (FrameAddress × Change)) (t : Trace) : Except ChangeError Trace :=
  changes.foldlM (fun t change => t.applyAt change.1 change.2) t

/-- Takes changes back, the last one first. -/
def retractAll (changes : List (FrameAddress × Change)) (t : Trace) : Except ChangeError Trace :=
  changes.foldrM (fun change t =>
    t.retractAt change.1 change.2.entry.kind change.2.entry.node) t

end Trace

end CaptureTree
