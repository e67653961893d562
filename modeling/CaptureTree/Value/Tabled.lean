import CaptureTree.Trace.Tables
import CaptureTree.Value.Projection

/-!
# Reading values from tables

An engine that keeps a frame in tables reads values from them by looking up the rows of the nodes
that a slot is about.  The tables are read as they are, with the rows that have been emptied.

The frames of a loop that was handed over as one list of spans per capture are made by recording
the spans in new tables.
-/

namespace CaptureTree

namespace Tables

/-! ## Iterations and branches -/

/-- Iteration `i` of a loop that is recorded as span lists. -/
def splitFrame (rows : List (NodeId × List Span)) (i : Nat) : Tables :=
  rows.foldl (fun t row => row.2[i]?.elim t fun s => t.apply (.record row.1 s)) empty

/-- The frames of a loop around `body` that is recorded as one span list per capture. -/
def splitSpans (slot : SlotTitle) (body : Located) (t : Tables) :
    Except Inconsistency (List Tables) :=
  match body.subtrees.find? Trace.blocksSplitting with
  | some p => .error (.unsplittable slot p.kind)
  | none =>
    let rows := body.captures.map fun c => (c.id, t.spans c.id)
    let n := (rows.head?.map fun row => row.2.length).getD 0
    match rows.find? fun row => row.2.length != n with
    | some row => .error (.unevenSpans slot n row.2.length)
    | none => .ok ((List.range n).map (splitFrame rows))

/-- The iteration frames of a quantifier, whichever way they were recorded. -/
def frames (slot : SlotTitle) (q : Located) (t : Tables) : Except Inconsistency (List Tables) :=
  let recorded := t.iterations q.id
  match q.body.filter t.touches with
  | none => .ok recorded
  | some body =>
    if recorded.isEmpty then splitSpans slot body t
    else .error (.looseRecords slot recorded.length)

/-- The branches of an alternation that are in use: chosen, or recorded inside. -/
def liveBranches (a : Located) (t : Tables) : List Nat :=
  let chosen := t.choices a.id
  (a.children.zipIdx.filter fun (b, i) => chosen.contains i || t.touches b).map (·.2)

/-- The branch that an alternation took in this frame. -/
def branchTaken (slot : SlotTitle) (a : Located) (t : Tables) : Except Inconsistency Nat :=
  let chosen := (t.choices a.id).length
  if 1 < chosen then .error (.manyChoices slot chosen)
  else
    match t.liveBranches a with
    | [i] => .ok i
    | live => .error (.liveBranches slot live.length)

/-! ## Values -/

mutual
/-- The value of a shape, read from the tables of one frame. -/
def assemble : Shape → Tables → Except Inconsistency Value
  | .empty, _ => .ok .empty
  | .leaf o, t =>
    Value.assembleLeaf (Shape.leaf o).title ((o.map fun c => t.spans c.id).getD [])
  | .product _ ss, t => do return .product (← assembleAll ss t)
  | .sum a ss, t => do
    let slot := (Shape.sum a ss).title
    let i ← t.branchTaken slot a
    return .sum i (← assembleBranch slot ss i t)
  | .repeated q s, t => do
    let frames ← t.frames (Shape.repeated q s).title q
    return .repeated (← frames.mapM fun f => assemble s f)
  | .opt q s, t => do
    let slot := (Shape.opt q s).title
    match ← t.frames slot q with
    | [] => return .opt none
    | [f] => return .opt (some (← assemble s f))
    | fs => .error (.manyIterations slot fs.length)

/-- The values of several shapes, read from the same tables. -/
def assembleAll : List Shape → Tables → Except Inconsistency (List Value)
  | [], _ => .ok []
  | s :: ss, t => do return (← assemble s t) :: (← assembleAll ss t)

/-- The value of branch `i` of a sum. -/
def assembleBranch (slot : SlotTitle) : List Shape → Nat → Tables → Except Inconsistency Value
  | [], _, _ => .error (.liveBranches slot 0)
  | s :: _, 0, t => assemble s t
  | _ :: ss, i + 1, t => assembleBranch slot ss i t
end

/-- The result of one capture, from the value if the capture has a path and otherwise from the
tables. -/
def result (shape : Shape) (value : Value) (t : Tables) (c : CaptureInfo) :
    Except ReadError Value :=
  match c.path with
  | some path => Value.project path shape value
  | none => Inconsistency.whileReading (assemble c.flat t)

/-- The span of the whole match, followed by the results of all captures in order. -/
def flatten (whole : Span) (shape : Shape) (value : Value) (captures : List CaptureInfo)
    (t : Tables) : Except ReadError (List Value) := do
  return .leaf (some whole) :: (← captures.mapM (result shape value t))

end Tables

end CaptureTree
