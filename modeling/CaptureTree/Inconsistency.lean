import CaptureTree.Message
import CaptureTree.Shape.Basic
import CaptureTree.Trace.Basic

/-!
# Inconsistencies

A trace may come from any engine, and a value from anywhere.  An inconsistency
says how one of them contradicts the pattern, its shape or the input.
-/

namespace CaptureTree

/-- A contradiction between a trace or value and what it is read against. -/
inductive Inconsistency where
  /-- A leaf with more than one span in its frame. -/
  | manySpans (slot : SlotTitle) (count : Nat)
  /-- An alternation that chose more than once in one frame. -/
  | manyChoices (slot : SlotTitle) (count : Nat)
  /-- An alternation with no branch in use, or with several. -/
  | liveBranches (slot : SlotTitle) (count : Nat)
  /-- A quantifier with iteration frames and records of its body beside them. -/
  | looseRecords (slot : SlotTitle) (frames : Nat)
  /-- Spans outside iteration frames that a nested node keeps from being
  assigned to iterations. -/
  | unsplittable (slot : SlotTitle) (nested : NodeKind)
  /-- Spans outside iteration frames that differ in number between captures. -/
  | unevenSpans (slot : SlotTitle) (first other : Nat)
  /-- A slot for at most one iteration with more of them. -/
  | manyIterations (slot : SlotTitle) (count : Nat)
  /-- A sum asked for the value it has when nothing was matched. -/
  | noAbsentValue (slot : SlotTitle)
  /-- A record for a node that is not part of its frame. -/
  | outsideFrame (record : RecordKind)
  /-- A record for a node of a kind that has no such records. -/
  | wrongNode (record : RecordKind) (node : NodeKind)
  /-- A span that is reversed or runs past the input. -/
  | badSpan (span : Span) (size : Nat)
  /-- A choice of a branch that the alternation does not have. -/
  | badChoice (branch branches : Nat)
  /-- A value of a kind that its shape does not have. -/
  | nonconforming (value : SlotKind) (slot : SlotTitle)
  /-- A sum value without exactly one child, or with a branch that the sum does
  not have. -/
  | noBranchSelected
  /-- A match that is reversed or runs past the input. -/
  | badMatch (span : Span) (size : Nat)
  deriving DecidableEq, Repr

namespace Inconsistency

/-- That a span lies outside an input, said of `what`. -/
def misfit (what : String) (span : Span) (size : Nat) : String :=
  what ++ " " ++ span.text ++ " does not fit an input of " ++ toString size ++ " bytes"

/-- What the contradiction is, in words. -/
def reason : Inconsistency → String
  | manySpans slot count =>
    slot.text ++ " recorded " ++ toString count ++ " spans in one frame"
  | manyChoices slot count =>
    slot.text ++ " chose " ++ toString count ++ " times in one frame"
  | liveBranches slot count =>
    slot.text ++ " has " ++ toString count ++ " non-empty branches, expected exactly one"
  | looseRecords slot frames =>
    slot.text ++ " has " ++ toString frames ++ " iteration frames and records outside them"
  | unsplittable slot nested =>
    slot.text ++ " spans can not be split per iteration: a nested " ++ nested.name ++
      " holds captures and recorded no frames"
  | unevenSpans slot first other =>
    slot.text ++ " captures recorded " ++ toString first ++ " and " ++ toString other ++
      " spans, can not split them per iteration"
  | manyIterations slot count => slot.text ++ " executed " ++ toString count ++ " times"
  | noAbsentValue slot =>
    "no absent value for " ++ slot.text ++ ": exactly one branch must be selected"
  | outsideFrame record => record.name ++ " recorded for a node outside its frame"
  | wrongNode record node => record.name ++ " recorded for a " ++ node.name ++ " node"
  | badSpan span size => misfit "span" span size
  | badChoice branch branches =>
    "choice " ++ toString branch ++ " past an alternation of " ++ toString branches ++ " branches"
  | nonconforming value slot =>
    "value of kind " ++ value.name ++ " does not conform to " ++ slot.text
  | noBranchSelected => "Sum value does not hold exactly one selected branch"
  | badMatch span size => misfit "match" span size

/-- The full message. -/
def message (e : Inconsistency) : String :=
  terminated ("internal error: " ++ e.reason)

end Inconsistency

end CaptureTree
