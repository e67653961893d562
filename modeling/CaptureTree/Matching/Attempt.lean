import CaptureTree.Matching.Cursor
import CaptureTree.Trace.Basic

/-!
# Attempts

A search follows one *attempt* at a time: a cursor, the list of tasks that are
still to be done, and the records made so far in the current frame, latest
first.  Doing the first task replaces the attempt by the attempts that can take
its place, in order of preference: none if the task fails, one if there is
nothing to choose, and several at an alternation or when a loop may go on or
stop.

Nothing is ever taken back.  What an attempt knows of enclosing captures and
frames is kept in its tasks: the task that ends a capture knows where it began,
and the task that ends an iteration knows the records of the frame around it.
-/

namespace CaptureTree

/-- A quantifier as seen from inside its loop. -/
structure Loop where
  quantifier : NodeId
  bounds : Bounds
  /-- What is repeated. -/
  body : Option Located
  /-- Does every iteration get a frame?  It does if there is a capture in the
  body. -/
  framed : Bool

/-- The loop of a quantifier. -/
def Loop.ofNode (q : Located) : Loop :=
  { quantifier := q.id, bounds := q.bounds, body := q.body,
    framed := q.body.any Located.hasCapture }

/-- Something that an attempt still has to do. -/
inductive Task where
  /-- Match a node. -/
  | visit (p : Located)
  /-- End a capture that began at position `start`. -/
  | close (capture : NodeId) (start : Nat)
  /-- Go round a loop once more, or leave it, after `count` iterations. -/
  | turn (loop : Loop) (count : Nat)
  /-- End the iteration after `count` others, which began with `start` bytes
  left, and return to the frame with the records `outer`. -/
  | finish (loop : Loop) (count start : Nat) (outer : List Record)

/-- One way of matching, under way. -/
structure Attempt where
  tasks : List Task
  cursor : Cursor
  /-- What is recorded in the current frame, latest first. -/
  records : List Record

namespace Attempt

/-- Matching a node: what takes the place of an attempt that has `rest` to do
after it. -/
def visit (p : Located) (rest : List Task) (c : Cursor) (records : List Record) :
    List Attempt :=
  match p.kind with
  | .literal => (c.match? p.label.literal).toList.map fun c => ⟨rest, c, records⟩
  | .capture => [⟨p.body.toList.map .visit ++ .close p.id c.pos :: rest, c, records⟩]
  | .group => [⟨p.body.toList.map .visit ++ rest, c, records⟩]
  | .concat => [⟨p.children.map .visit ++ rest, c, records⟩]
  | .alternation =>
    if p.children.isEmpty then [⟨rest, c, records⟩]
    else
      let marked := p.hasCapture
      p.children.zipIdx.map fun branch =>
        ⟨.visit branch.1 :: rest, c,
          if marked then .choice p.id branch.2 :: records else records⟩
  | .quantifier => [⟨.turn (Loop.ofNode p) 0 :: rest, c, records⟩]

/-- The attempt that goes round a loop once more. -/
def goOn (l : Loop) (count : Nat) (rest : List Task) (c : Cursor) (records : List Record) :
    Attempt :=
  ⟨l.body.toList.map .visit ++ .finish l count c.left records :: rest, c, []⟩

/-- Doing the first task of an attempt: the attempts that take its place, in
order of preference. -/
def step (task : Task) (rest : List Task) (c : Cursor) (records : List Record) :
    List Attempt :=
  match task with
  | .visit p => visit p rest c records
  | .close n start => [⟨rest, c, .span n ⟨start, c.pos⟩ :: records⟩]
  | .turn l count =>
    if l.bounds.isFull count then [⟨rest, c, records⟩]
    else if count < l.bounds.min then [goOn l count rest c records]
    else [goOn l count rest c records, ⟨rest, c, records⟩]
  | .finish l count start outer =>
    -- an iteration counts if it consumed something, or was still required
    if c.left < start ∨ c.left = start ∧ count < l.bounds.min then
      let records :=
        if l.framed then .iteration l.quantifier records.reverse :: outer else records ++ outer
      [⟨.turn l (count + 1) :: rest, c, records⟩]
    else []

end Attempt

end CaptureTree
