import CaptureTree.Inconsistency
import CaptureTree.Value.Basic

/-!
# Assembling a value from a trace

`Value.assemble` reads a trace frame by frame along a shape.

* A leaf takes the only span of its capture in the frame, if there is one.
* A sum takes the only branch in use: the one that the frame records as chosen,
  or one inside which something is recorded.
* A list, or a slot that may be left out, takes one value per iteration of its
  quantifier and reads it from the frame of that iteration.

An engine may also hand over a loop without frames, as one list of spans per
capture.  `splitSpans` then makes the frames: the first spans of all captures
form the first iteration, and so on.  It needs lists of equal length, and a body
in which every iteration records every capture, that is, one without capturing
quantifiers and alternations.

`Value.absent` is the value of a slot when nothing below it took part.
-/

namespace CaptureTree

/-! ## Absent slots -/

namespace Value

mutual
/-- The value of a slot in a subpattern that was not executed.  A sum has
none. -/
def absent : Shape → Except Inconsistency Value
  | .empty => .ok empty
  | .leaf _ => .ok (leaf none)
  | .product _ ss => (absentAll ss).map product
  | .sum o ss => .error (.noAbsentValue (Shape.sum o ss).title)
  | .repeated .. => .ok (repeated [])
  | .opt .. => .ok (opt none)

/-- The absent values of several slots. -/
def absentAll : List Shape → Except Inconsistency (List Value)
  | [] => .ok []
  | s :: ss => do return (← absent s) :: (← absentAll ss)
end

end Value

/-! ## Iterations -/

namespace Trace

/-- A node that keeps span lists from being assigned to iterations: whether it
is executed, and how often, may differ from one iteration to the next. -/
def blocksSplitting (p : Located) : Bool :=
  (p.kind == .quantifier || p.kind == .alternation) && p.hasCapture

/-- Iteration `i` of a loop that is recorded as span lists. -/
def splitFrame (rows : List (NodeId × List Span)) (i : Nat) : Trace :=
  rows.filterMap fun (c, spans) => spans[i]?.map (.span c)

/-- The frames of a loop around `body` that is recorded as one span list per
capture. -/
def splitSpans (slot : SlotTitle) (body : Located) (t : Trace) :
    Except Inconsistency (List Trace) :=
  match body.subtrees.find? blocksSplitting with
  | some p => .error (.unsplittable slot p.kind)
  | none =>
    let rows := body.captures.map fun c => (c.id, t.spans c.id)
    let n := (rows.head?.map fun row => row.2.length).getD 0
    match rows.find? fun row => row.2.length != n with
    | some row => .error (.unevenSpans slot n row.2.length)
    | none => .ok ((List.range n).map (splitFrame rows))

/-- The iteration frames of a quantifier, whichever way they were recorded. -/
def frames (slot : SlotTitle) (q : Located) (t : Trace) : Except Inconsistency (List Trace) :=
  let recorded := t.iterations q.id
  match q.body.filter t.touches with
  | none => .ok recorded
  | some body =>
    if recorded.isEmpty then splitSpans slot body t
    else .error (.looseRecords slot recorded.length)

/-- The branches of an alternation that are in use: chosen, or recorded
inside. -/
def liveBranches (a : Located) (t : Trace) : List Nat :=
  let chosen := t.choices a.id
  (a.children.zipIdx.filter fun (b, i) => chosen.contains i || t.touches b).map (·.2)

/-- The branch that an alternation took in this frame. -/
def branchTaken (slot : SlotTitle) (a : Located) (t : Trace) : Except Inconsistency Nat :=
  let chosen := (t.choices a.id).length
  if 1 < chosen then .error (.manyChoices slot chosen)
  else
    match t.liveBranches a with
    | [i] => .ok i
    | live => .error (.liveBranches slot live.length)

end Trace

/-! ## Assembly -/

namespace Value

/-- The value of a leaf. -/
def assembleLeaf (slot : SlotTitle) (spans : List Span) : Except Inconsistency Value :=
  match spans with
  | [] => .ok (leaf none)
  | [s] => .ok (leaf (some s))
  | _ => .error (.manySpans slot spans.length)

mutual
/-- The value of a shape, read from one frame of a trace. -/
def assemble : Shape → Trace → Except Inconsistency Value
  | .empty, _ => .ok empty
  | .leaf o, t => assembleLeaf (Shape.leaf o).title ((o.map fun c => t.spans c.id).getD [])
  | .product _ ss, t => do return product (← assembleAll ss t)
  | .sum a ss, t => do
    let slot := (Shape.sum a ss).title
    let i ← t.branchTaken slot a
    return sum i (← assembleBranch slot ss i t)
  | .repeated q s, t => do
    let frames ← t.frames (Shape.repeated q s).title q
    return repeated (← frames.mapM fun f => assemble s f)
  | .opt q s, t => do
    let slot := (Shape.opt q s).title
    match ← t.frames slot q with
    | [] => return opt none
    | [f] => return opt (some (← assemble s f))
    | fs => .error (.manyIterations slot fs.length)

/-- The values of several shapes, read from the same frame. -/
def assembleAll : List Shape → Trace → Except Inconsistency (List Value)
  | [], _ => .ok []
  | s :: ss, t => do return (← assemble s t) :: (← assembleAll ss t)

/-- The value of branch `i` of a sum. -/
def assembleBranch (slot : SlotTitle) : List Shape → Nat → Trace → Except Inconsistency Value
  | [], _, _ => .error (.liveBranches slot 0)
  | s :: _, 0, t => assemble s t
  | _ :: ss, i + 1, t => assembleBranch slot ss i t
end

end Value

end CaptureTree
